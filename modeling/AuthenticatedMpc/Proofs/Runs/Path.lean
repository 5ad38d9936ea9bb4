import AuthenticatedMpc.Party.Transport

/-!
# What a party can do

A path is a run of a party, complete or not, over a transport that replies as it likes: it may
deliver any packet and fail at any time. Every run over a particular transport is such a path, and
a path of a composed program consists of paths of its parts.
-/

namespace AuthenticatedMpc

variable {σ τ α β T : Type}

/-- One move of a party, with any reply to a send or a receive. -/
inductive Step : Actor σ α → Move → Actor σ α → Prop
  | inner (event : Option Event) (update : σ → σ) (next : σ → Program σ α) (s : σ) :
      Step ⟨.step event update next, s⟩ (.inner event) ⟨next s, update s⟩
  | send (peer : PartyId) (packet : Packet) (next : Except NetworkError Unit → Program σ α) (s : σ)
      (reply : Except NetworkError Unit) :
      Step ⟨.send peer packet next, s⟩ (.sent peer packet reply) ⟨next reply, s⟩
  | receive (peer : PartyId) (next : Except NetworkError Packet → Program σ α) (s : σ)
      (reply : Except NetworkError Packet) :
      Step ⟨.receive peer next, s⟩ (.received peer reply) ⟨next reply, s⟩
  | close (next : Program σ α) (s : σ) : Step ⟨.close next, s⟩ .closed ⟨next, s⟩

/-- A run of a party, with its moves in order. -/
inductive Path : Actor σ α → List Move → Actor σ α → Prop
  | refl (actor : Actor σ α) : Path actor [] actor
  | head {a b c : Actor σ α} {move : Move} {moves : List Move} (first : Step a move b)
      (rest : Path b moves c) : Path a (move :: moves) c

theorem Step.of_next? {net : Transport T} {p : Program σ α} {s : σ} {t t' : T} {move : Move}
    {actor : Actor σ α} (h : p.next? net s t = some (move, actor, t')) :
    Step ⟨p, s⟩ move actor := by
  cases p with
  | pure _ | fail _ | never => simp [Program.next?] at h
  | step event update next =>
    simp only [Program.next?, Option.some.injEq, Prod.mk.injEq] at h
    obtain ⟨rfl, rfl, -⟩ := h
    exact .inner ..
  | send peer packet next =>
    simp only [Program.next?, Option.some.injEq, Prod.mk.injEq] at h
    obtain ⟨rfl, rfl, -⟩ := h
    exact .send ..
  | receive peer next =>
    simp only [Program.next?] at h
    split at h
    · simp at h
    · simp only [Option.some.injEq, Prod.mk.injEq] at h
      obtain ⟨rfl, rfl, -⟩ := h
      exact .receive ..
  | close next =>
    simp only [Program.next?, Option.some.injEq, Prod.mk.injEq] at h
    obtain ⟨rfl, rfl, -⟩ := h
    exact .close ..

/-- The party after at most so many moves, up to the first that needs the transport. -/
def Actor.settle : Nat → Actor σ α → List Move × Actor σ α
  | count + 1, ⟨.step event update next, s⟩ =>
    let (moves, actor) := settle count ⟨next s, update s⟩
    (.inner event :: moves, actor)
  | _, actor => ([], actor)

/-- The party after at most so many moves, over a transport that takes all packets and delivers these. -/
def Actor.attend : List Packet → Nat → Actor σ α → List Move × Actor σ α
  | packets, count + 1, ⟨.step event update next, s⟩ =>
    let (moves, actor) := attend packets count ⟨next s, update s⟩
    (.inner event :: moves, actor)
  | packets, count + 1, ⟨.send peer packet next, s⟩ =>
    let (moves, actor) := attend packets count ⟨next (.ok ()), s⟩
    (.sent peer packet (.ok ()) :: moves, actor)
  | packet :: packets, count + 1, ⟨.receive peer next, s⟩ =>
    let (moves, actor) := attend packets count ⟨next (.ok packet), s⟩
    (.received peer (.ok packet) :: moves, actor)
  | _, _, actor => ([], actor)

namespace Path

theorem settle (count : Nat) (actor : Actor σ α) :
    Path actor (actor.settle count).1 (actor.settle count).2 := by
  induction count generalizing actor with
  | zero => exact .refl _
  | succ count ih =>
    obtain ⟨program, s⟩ := actor
    cases program with
    | step event update next => exact .head (.inner ..) (ih _)
    | pure | fail | never | send | receive | close => exact .refl _

theorem attend (packets : List Packet) (count : Nat) (actor : Actor σ α) :
    Path actor (actor.attend packets count).1 (actor.attend packets count).2 := by
  induction count generalizing packets actor with
  | zero => exact .refl _
  | succ count ih =>
    obtain ⟨program, s⟩ := actor
    cases program with
    | step event update next => exact .head (.inner ..) (ih _ _)
    | send peer packet next => exact .head (.send ..) (ih _ _)
    | receive peer next =>
      cases packets with
      | nil => exact .refl _
      | cons packet packets => exact .head (.receive ..) (ih _ _)
    | pure | fail | never | close => exact .refl _

theorem trans {a b c : Actor σ α} {front back : List Move} (first : Path a front b)
    (rest : Path b back c) : Path a (front ++ back) c := by
  induction first with
  | refl => exact rest
  | head step _ ih => exact .head step (ih rest)

/-- Between two parts of its moves a path is somewhere. -/
theorem of_append {a c : Actor σ α} {front back : List Move} (h : Path a (front ++ back) c) :
    ∃ b, Path a front b ∧ Path b back c := by
  induction front generalizing a with
  | nil => exact ⟨a, .refl a, h⟩
  | cons move front ih =>
    cases h with
    | head step rest =>
      obtain ⟨b, hfront, hback⟩ := ih rest
      exact ⟨b, .head step hfront, hback⟩

theorem eq_of_pure {value : α} {s : σ} {moves : List Move} {actor : Actor σ α}
    (h : Path ⟨.pure value, s⟩ moves actor) : moves = [] ∧ actor = ⟨.pure value, s⟩ := by
  cases h with
  | refl => exact ⟨rfl, rfl⟩
  | head step => cases step

end Path
end AuthenticatedMpc
