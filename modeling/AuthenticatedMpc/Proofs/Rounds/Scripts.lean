import AuthenticatedMpc.Proofs.Rounds.Batch

/-!
# Gates as scripts

Whatever a gate does, it does in steps: it works on the ledger and the board, broadcasts a message,
receives the next message of a peer, or ends its round. A script lays these steps down, each depending
on what was read and received before; a scripted gate goes through its script and keeps account of what
it has said and heard in each of its rounds.
-/

namespace AuthenticatedMpc

/-- The steps of a gate from some point of its run on. -/
inductive GateScript (W : Type) where
  /-- Ends the last round. -/
  | finish
  /-- Ends a round that is not the last. -/
  | pause (next : GateScript W)
  /-- Changes the ledger and the board, and goes on by what they were. -/
  | work (update : Ledger → W → Ledger × W) (next : Ledger → W → GateScript W)
  | broadcast (payload : Payload) (next : GateScript W)
  | receive (peer : PartyId) (next : Payload → GateScript W)

/-- What a gate has said and heard in a round, in order. -/
structure GateTurn where
  round : Nat
  said : List Payload
  heard : List (PartyId × Payload)
deriving DecidableEq, Repr

def GateTurn.heardFrom (turn : GateTurn) (peer : PartyId) : List Payload :=
  turn.heard.filterMap fun entry => if entry.1 = peer then some entry.2 else none

theorem GateTurn.heardFrom_cons (turn : GateTurn) (sender : PartyId) (payload : Payload)
    (peer : PartyId) :
    { turn with heard := (sender, payload) :: turn.heard }.heardFrom peer =
      if sender = peer then payload :: turn.heardFrom peer else turn.heardFrom peer := by
  by_cases h : sender = peer <;> simp [heardFrom, h]

structure ScriptedGate (W : Type) where
  script : GateScript W
  /-- The rounds in which the gate was evaluated. -/
  turns : List GateTurn := []

namespace GateScript

variable {W : Type}

/-- One round: what is said and heard, and the script of the rounds after it. -/
def play (me : Party) (round : Nat) : GateScript W → Program (Desk W) (GateTurn × GateScript W × Status)
  | finish => pure (⟨round, [], []⟩, finish, .done)
  | pause next => pure (⟨round, [], []⟩, next, .moreRounds)
  | work update next =>
    .step none (fun desk =>
      { desk with
        ledger := (update desk.ledger desk.board).1
        board := (update desk.ledger desk.board).2 })
      fun desk => (next desk.ledger desk.board).play me round
  | broadcast payload next => do
    Desk.broadcast me payload
    let (turn, rest) ← next.play me round
    pure ({ turn with said := payload :: turn.said }, rest)
  | receive peer next => do
    let payload ← Desk.receive me peer
    let (turn, rest) ← (next payload).play me round
    pure ({ turn with heard := (peer, payload) :: turn.heard }, rest)

/-- From here the script goes on for this round and `later` more. In this round it has yet to receive
one message from each of the parties that are due and, if it speaks, to broadcast one; in each later
round it receives one message from every peer and broadcasts one unless the round is the last. -/
def Lasts (me : Party) : GateScript W → (due : List PartyId) → (speaks : Bool) → (later : Nat) → Prop
  | finish, due, speaks, later => due = [] ∧ speaks = false ∧ later = 0
  | pause next, due, speaks, later =>
    due = [] ∧ speaks = false ∧ ∃ last, later = last + 1 ∧ next.Lasts me me.peers (last != 0) last
  | work _ next, due, speaks, later => ∀ ledger board, (next ledger board).Lasts me due speaks later
  | broadcast _ next, due, speaks, later => speaks = true ∧ next.Lasts me due false later
  | receive peer next, due, speaks, later =>
    peer ∈ due ∧ ∀ payload, (next payload).Lasts me (due.erase peer) speaks later

/-- The script of a gate with this number of rounds: it broadcasts one message in each round but the
last and receives one message from every peer in each round but the first. -/
def HasRounds (me : Party) (rounds : Nat) (script : GateScript W) : Prop :=
  ∃ last, rounds = last + 1 ∧ script.Lasts me [] (last != 0) last

end GateScript

instance (W : Type) : Gate (ScriptedGate W) W where
  revealsOutput _ := false
  release _ board := board
  evaluate me round gate := do
    let (turn, script, status) ← gate.script.play me round
    pure (⟨script, gate.turns ++ [turn]⟩, status)

/-! ## One round of a gate -/

/-- The buffer of a party within a round: what was said to all peers, and of each peer what is left of
its messages if they were fetched. -/
def RoundBuffer.stocked (me : Party) (phase : Phase) (said : List Payload)
    (supply : PartyId → List Payload) (fetched : PartyId → Bool) : RoundBuffer :=
  .of phase me.parties (fun q => if q = me.id then [] else said)
    (fun q => if fetched q then supply q else []) fetched

/-- The packets of the peers come, one of each that is due and was not fetched. -/
structure Fetches (me : Party) (phase : Phase) (supply : PartyId → List Payload)
    (due : PartyId → Bool) (talk : List Signal) : Prop where
  isReceived : ∀ signal ∈ talk, ∃ q ∈ me.peers, ∃ packet, signal = .received q packet
  receivedFrom_eq : ∀ q, receivedFrom q talk = if due q then [⟨phase, supply q⟩] else []

theorem Fetches.cons {me : Party} {phase : Phase} {supply : PartyId → List Payload}
    {fetched : PartyId → Bool} {due : List PartyId} {peer : PartyId} {rest : List Payload}
    {talk : List Signal} (hnodup : due.Nodup) (hpeer : peer ∈ me.peers) (hdue : peer ∈ due)
    (h : Fetches me phase (Function.update supply peer rest)
      (fun q => decide (q ∈ due.erase peer) && !Function.update fetched peer true q) talk) :
    Fetches me phase supply (fun q => decide (q ∈ due) && !fetched q)
      ((if fetched peer then [] else [.received peer ⟨phase, supply peer⟩]) ++ talk) where
  isReceived signal hmem := by
    obtain hfirst | hrest := List.mem_append.mp hmem
    · split at hfirst
      · cases hfirst
      · exact ⟨peer, hpeer, _, List.mem_singleton.mp hfirst⟩
    · exact h.isReceived signal hrest
  receivedFrom_eq q := by
    rw [receivedFrom_append, h.receivedFrom_eq]
    rcases eq_or_ne q peer with rfl | hne
    · cases hfetched : fetched q <;> simp [receivedFrom, hdue]
    · cases hfetched : fetched peer <;> simp [receivedFrom, hne, hne.symm, hnodup.mem_erase_iff]

/-- A gate has had a turn in which it spoke or not, and has heard one message from each party due. -/
structure GateTurn.Fits (round : Nat) (speaks : Bool) (due : List PartyId) (told : PartyId → Payload)
    (turn : GateTurn) : Prop where
  round_eq : turn.round = round
  length_said : turn.said.length = speaks.toNat
  heardFrom_eq : ∀ q, turn.heardFrom q = if q ∈ due then [told q] else []

theorem GateTurn.Fits.hear {round : Nat} {speaks : Bool} {due : List PartyId} {told : PartyId → Payload}
    {turn : GateTurn} {peer : PartyId} (h : turn.Fits round speaks (due.erase peer) told)
    (hnodup : due.Nodup) (hpeer : peer ∈ due) :
    { turn with heard := (peer, told peer) :: turn.heard }.Fits round speaks due told where
  round_eq := h.round_eq
  length_said := h.length_said
  heardFrom_eq q := by
    rw [heardFrom_cons, h.heardFrom_eq]
    rcases eq_or_ne peer q with rfl | hne
    · simp [hpeer, hnodup.mem_erase_iff]
    · simp [hne, hne.symm, hnodup.mem_erase_iff]

theorem GateTurn.Fits.say {round : Nat} {due : List PartyId} {told : PartyId → Payload}
    {turn : GateTurn} (h : turn.Fits round false due told) (payload : Payload) :
    { turn with said := payload :: turn.said }.Fits round true due told where
  round_eq := h.round_eq
  length_said := by
    rw [List.length_cons, h.length_said]
    rfl
  heardFrom_eq := h.heardFrom_eq

theorem RoundBuffer.stocked_erase {me : Party} {phase : Phase} {said : List Payload}
    {supply rest : PartyId → List Payload} {fetched : PartyId → Bool} {due : List PartyId}
    {peer : PartyId} (hnodup : due.Nodup) (hpeer : peer ∈ due) :
    stocked me phase said
      (fun q => if q ∈ due.erase peer then rest q else Function.update supply peer (rest peer) q)
      (fun q => decide (q ∈ due.erase peer) || Function.update fetched peer true q) =
    stocked me phase said (fun q => if q ∈ due then rest q else supply q)
      fun q => decide (q ∈ due) || fetched q := by
  congr 1 <;> funext q <;> rcases eq_or_ne q peer with rfl | hne
  · simp [hpeer, hnodup.mem_erase_iff]
  · simp [hne, hnodup.mem_erase_iff]
  · simp [hpeer]
  · simp [hne, hnodup.mem_erase_iff]

def GateScript.Remains {W : Type} (me : Party) : (later : Nat) → Status → GateScript W → Prop
  | 0, status, _ => status = .done
  | last + 1, status, script => status = .moreRounds ∧ script.Lasts me me.peers (last != 0) last

namespace Desk

variable {W : Type} {me : Party} {phase : Phase} {said : List Payload}
  {supply : PartyId → List Payload} {fetched : PartyId → Bool} {desk : Desk W}

theorem ends_broadcast_stocked (hrounds : desk.rounds = .stocked me phase said supply fetched)
    (payload : Payload) :
    (broadcast me payload).Ends desk [] (.ok ())
      { desk with rounds := .stocked me phase (said ++ [payload]) supply fetched } := by
  have hdesk : desk = { desk with rounds := .stocked me phase said supply fetched } := by
    rw [← hrounds]
  have hout : (fun q => if q = me.id then [] else said ++ [payload]) = fun q =>
      if q = me.id then (if q = me.id then [] else said)
      else (if q = me.id then [] else said) ++ [payload] := by
    funext q
    split <;> rfl
  rw [hdesk]
  refine ends_broadcast.mpr ⟨rfl, rfl, ?_⟩
  rw [RoundBuffer.stocked, hout]

theorem ends_receive_stocked (hrounds : desk.rounds = .stocked me phase said supply fetched)
    {q : PartyId} (hq : q ∈ me.peers) {message : Payload} {rest : List Payload}
    (hsupply : supply q = message :: rest) :
    (receive me q).Ends desk (if fetched q then [] else [.received q ⟨phase, supply q⟩])
      (.ok message)
      { desk with
        rounds := .stocked me phase said (Function.update supply q rest)
          (Function.update fetched q true) } := by
  have hdesk : desk = { desk with rounds := .stocked me phase said supply fetched } := by
    rw [← hrounds]
  obtain ⟨hlt, hne⟩ := Party.mem_peers.mp hq
  have hheld : (fun x => if Function.update fetched q true x then Function.update supply q rest x
      else []) = Function.update (fun x => if fetched x then supply x else []) q rest := by
    funext x
    rcases eq_or_ne x q with rfl | hx
    · simp
    · simp [hx]
  rw [hdesk, RoundBuffer.stocked, RoundBuffer.stocked, hheld]
  cases hfetched : fetched q with
  | true =>
    have hsame : Function.update fetched q true = fetched := by rw [← hfetched, Function.update_eq_self]
    rw [hsame]
    exact (ends_receive_fetched hlt hne hfetched).mpr
      ⟨rfl, rest, by rw [if_pos hfetched, hsupply], rfl⟩
  | false =>
    refine (ends_receive_fresh hlt hne (by simp [hfetched]) hfetched).mpr ⟨rest, ?_, rfl⟩
    rw [hsupply]
    rfl

end Desk

namespace GateScript

variable {W : Type} {me : Party} {phase : Phase} {script : GateScript W} {due : List PartyId}
  {speaks : Bool} {later : Nat} {desk : Desk W}

/-- A script goes through a round if there is a message of each party that is due. -/
theorem exists_play (hlasts : script.Lasts me due speaks later) (hdue : ∀ q ∈ due, q ∈ me.peers)
    (hnodup : due.Nodup) {said : List Payload} {supply rest : PartyId → List Payload}
    {fetched : PartyId → Bool} {told : PartyId → Payload}
    (hsupply : ∀ q ∈ due, supply q = told q :: rest q) (round : Nat)
    (hrounds : desk.rounds = .stocked me phase said supply fetched) :
    ∃ talk turn next status desk',
      (script.play me round).Ends desk talk (.ok (turn, next, status)) desk' ∧
      desk'.rounds = .stocked me phase (said ++ turn.said)
        (fun q => if q ∈ due then rest q else supply q) (fun q => decide (q ∈ due) || fetched q) ∧
      turn.Fits round speaks due told ∧ next.Remains me later status ∧
      Fetches me phase supply (fun q => decide (q ∈ due) && !fetched q) talk := by
  induction script generalizing due speaks later desk said supply fetched with
  | finish =>
    obtain ⟨rfl, rfl, rfl⟩ := hlasts
    exact ⟨[], ⟨round, [], []⟩, .finish, .done, desk, ⟨rfl, rfl, rfl⟩, by simpa using hrounds,
      ⟨rfl, rfl, fun q => by simp [GateTurn.heardFrom]⟩, rfl,
      ⟨nofun, fun q => by simp [receivedFrom]⟩⟩
  | pause next ih =>
    obtain ⟨rfl, rfl, last, rfl, hnext⟩ := hlasts
    exact ⟨[], ⟨round, [], []⟩, next, .moreRounds, desk, ⟨rfl, rfl, rfl⟩, by simpa using hrounds,
      ⟨rfl, rfl, fun q => by simp [GateTurn.heardFrom]⟩, ⟨rfl, hnext⟩,
      ⟨nofun, fun q => by simp [receivedFrom]⟩⟩
  | work update next ih =>
    exact ih desk.ledger desk.board (hlasts desk.ledger desk.board) hdue hnodup hsupply hrounds
  | broadcast payload next ih =>
    obtain ⟨rfl, hnext⟩ := hlasts
    obtain ⟨talk, turn, later', status, desk', hplay, hrounds', hfits, hremains, hfetches⟩ :=
      @ih _ _ _ { desk with rounds := .stocked me phase (said ++ [payload]) supply fetched } hnext hdue
        hnodup _ _ _ hsupply rfl
    have hends : ((broadcast payload next).play me round).Ends desk ([] ++ (talk ++ []))
        (.ok ({ turn with said := payload :: turn.said }, later', status)) desk' :=
      (Desk.ends_broadcast_stocked hrounds payload).bind (hplay.bind ⟨rfl, rfl, rfl⟩)
    rw [List.nil_append, List.append_nil] at hends
    refine ⟨talk, _, later', status, desk', hends, ?_, hfits.say payload, hremains, hfetches⟩
    rw [hrounds', List.append_assoc, List.singleton_append]
  | receive peer next ih =>
    obtain ⟨hpeer, hnext⟩ := hlasts
    have hreceive := Desk.ends_receive_stocked hrounds (hdue peer hpeer) (hsupply peer hpeer)
    -- What is due now are the other parties, whose messages are where they were.
    have hsupply' : ∀ q ∈ due.erase peer,
        Function.update supply peer (rest peer) q = told q :: rest q := fun q hq => by
      obtain ⟨hne, hq⟩ := (hnodup.mem_erase_iff).mp hq
      rw [Function.update_of_ne hne, hsupply q hq]
    let middle : Desk W := { desk with
      rounds := .stocked me phase said (Function.update supply peer (rest peer))
        (Function.update fetched peer true) }
    obtain ⟨talk, turn, later', status, desk', hplay, hrounds', hfits, hremains, hfetches⟩ :=
      @ih (told peer) _ _ _ middle (hnext (told peer)) (fun q hq => hdue q (List.mem_of_mem_erase hq))
        (hnodup.erase peer) _ _ _ hsupply' rfl
    have hends : ((receive peer next).play me round).Ends desk
        ((if fetched peer then [] else [.received peer ⟨phase, supply peer⟩]) ++ (talk ++ []))
        (.ok ({ turn with heard := (peer, told peer) :: turn.heard }, later', status)) desk' :=
      hreceive.bind (hplay.bind ⟨rfl, rfl, rfl⟩)
    rw [List.append_nil] at hends
    exact ⟨_, _, later', status, desk', hends, hrounds'.trans (RoundBuffer.stocked_erase hnodup hpeer),
      hfits.hear hnodup hpeer, hremains, hfetches.cons hnodup (hdue peer hpeer) hpeer⟩

end GateScript
end AuthenticatedMpc
