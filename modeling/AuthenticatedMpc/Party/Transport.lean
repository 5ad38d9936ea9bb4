import AuthenticatedMpc.Party.Program

/-!
# Running a program over a transport

A transport answers sends at once and receives either at once or not yet. A run follows the program
until it ends or waits; `Program.next?` is one move of it.
-/

namespace AuthenticatedMpc

/-- One party's end of a transport with state `T`. -/
structure Transport (T : Type) where
  send : T → PartyId → Packet → Except NetworkError Unit × T
  /-- The reply to a receive, or nothing while there is none. -/
  receive : T → PartyId → Option (Except NetworkError Packet × T)
  close : T → T

/-- What one move of a program does. -/
inductive Move where
  | inner (event : Option Event)
  | sent (peer : PartyId) (packet : Packet) (reply : Except NetworkError Unit)
  | received (peer : PartyId) (reply : Except NetworkError Packet)
  | closed

/-- A party in the middle of its program. -/
structure Actor (σ α : Type) where
  program : Program σ α
  state : σ

namespace Program

variable {σ α T : Type}

def hasEnded : Program σ α → Bool
  | pure _ | fail _ => true
  | _ => false

/-- One move: what it does, and the actor and the transport after it. There is none at the end, and
none while a receive has no reply. -/
def next? (net : Transport T) : Program σ α → σ → T → Option (Move × Actor σ α × T)
  | pure _, _, _ | fail _, _, _ | never, _, _ => none
  | step event update next, s, t => some (.inner event, ⟨next s, update s⟩, t)
  | send peer packet next, s, t =>
    let (reply, t) := net.send t peer packet
    some (.sent peer packet reply, ⟨next reply, s⟩, t)
  | receive peer next, s, t =>
    match net.receive t peer with
    | none => none
    | some (reply, t) => some (.received peer reply, ⟨next reply, s⟩, t)
  | close next, s, t => some (.closed, ⟨next, s⟩, net.close t)

inductive Child : Program σ α → Program σ α → Prop where
  | step (event : Option Event) (update : σ → σ) (next : σ → Program σ α) (s : σ) :
      Child (next s) (.step event update next)
  | send (peer : PartyId) (packet : Packet) (next : Except NetworkError Unit → Program σ α)
      (reply : Except NetworkError Unit) : Child (next reply) (.send peer packet next)
  | receive (peer : PartyId) (next : Except NetworkError Packet → Program σ α)
      (reply : Except NetworkError Packet) : Child (next reply) (.receive peer next)
  | close (next : Program σ α) : Child next (.close next)

theorem child_wf : WellFounded (@Child σ α) := by
  constructor
  intro p
  induction p with
  | pure _ | fail _ | never => exact ⟨_, fun q h => by cases h⟩
  | step event update next ih => exact ⟨_, fun q h => by cases h; exact ih _⟩
  | send peer packet next ih => exact ⟨_, fun q h => by cases h; exact ih _⟩
  | receive peer next ih => exact ⟨_, fun q h => by cases h; exact ih _⟩
  | close next ih => exact ⟨_, fun q h => by cases h; exact ih⟩

theorem child_of_next? {net : Transport T} {p : Program σ α} {s : σ} {t : T} {move : Move}
    {actor : Actor σ α} {t' : T} (h : p.next? net s t = some (move, actor, t')) :
    Child actor.program p := by
  cases p with
  | pure _ | fail _ | never => simp [next?] at h
  | step event update next =>
    simp only [next?, Option.some.injEq, Prod.mk.injEq] at h
    obtain ⟨-, rfl, -⟩ := h
    exact .step ..
  | send peer packet next =>
    simp only [next?, Option.some.injEq, Prod.mk.injEq] at h
    obtain ⟨-, rfl, -⟩ := h
    exact .send ..
  | receive peer next =>
    simp only [next?] at h
    split at h
    · simp at h
    · simp only [Option.some.injEq, Prod.mk.injEq] at h
      obtain ⟨-, rfl, -⟩ := h
      exact .receive ..
  | close next =>
    simp only [next?, Option.some.injEq, Prod.mk.injEq] at h
    obtain ⟨-, rfl, -⟩ := h
    exact .close ..

/-! ## Whole runs -/

/-- Where a run stands: the actor and the transport, and what was seen on the way, newest first. -/
structure Run (σ α T ω : Type) where
  actor : Actor σ α
  transport : T
  seen : List ω

/-- Follows a program until it ends or waits. Each inner event is shown to `watch` with the state it
meets. -/
def run {ω : Type} (net : Transport T) (watch : Event → σ → List ω) :
    Program σ α → σ → T → List ω → Run σ α T ω
  | pure value, s, t, seen => ⟨⟨pure value, s⟩, t, seen⟩
  | fail error, s, t, seen => ⟨⟨fail error, s⟩, t, seen⟩
  | never, s, t, seen => ⟨⟨never, s⟩, t, seen⟩
  | step event update next, s, t, seen =>
    let seen :=
      match event with
      | some event => watch event s ++ seen
      | none => seen
    run net watch (next s) (update s) t seen
  | send peer packet next, s, t, seen =>
    let (reply, t) := net.send t peer packet
    run net watch (next reply) s t seen
  | receive peer next, s, t, seen =>
    match net.receive t peer with
    | none => ⟨⟨receive peer next, s⟩, t, seen⟩
    | some (reply, t) => run net watch (next reply) s t seen
  | close next, s, t, seen => run net watch next s (net.close t) seen

end Program
end AuthenticatedMpc
