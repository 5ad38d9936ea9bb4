import AuthenticatedMpc.Circuit.CircuitGate
import AuthenticatedMpc.MacCheck.Gates
import AuthenticatedMpc.Proofs.MacCheck.ClosedForm
import AuthenticatedMpc.Proofs.Rounds.Manners
import AuthenticatedMpc.Proofs.Runs.Dialogue

/-!
# Canonical openings

What an opening adds up are its own share, which is reduced, and what was decoded, which is checked to be
reduced. So the sums are reduced that go to the ledger and to the board, and so is what is sent.
-/

namespace AuthenticatedMpc

variable {p : Modulus}

/-! ## Canonical messages -/

def Phase.IsCircuit : Phase → Prop
  | circuit _ => True
  | macCheck _ => False

def Phase.IsMacCheck : Phase → Prop
  | circuit _ => False
  | macCheck _ => True

/-- In a circuit a message is read as an element; in a check it is read as a commitment, or as an element
with its nonce. -/
def Payload.Canonical (p : Modulus) (payload : Payload) : Phase → Prop
  | .circuit _ => ∃ value, p.decode payload = .ok value
  | .macCheck _ => (∃ commitment, Commitment.ofBytes payload = .ok commitment) ∨
      ∃ opened, DecommitGate.parse p payload = .ok opened

/-- Only canonical messages are sent, and only reduced records are opened and checked. -/
def Manner.canonical (p : Modulus) : Manner where
  sends phase payload := payload.Canonical p phase
  marks
    | .opened record => record.Reduced p
    | .checking _ records => ∀ record ∈ records, record.Reduced p
    | _ => True

theorem Payload.canonical_encode {value : Element} (h : p.Reduced value) {phase : Phase}
    (hphase : phase.IsCircuit) : (Modulus.encode value).Canonical p phase := by
  cases phase with
  | circuit _ => exact ⟨value, Modulus.decode_eq_ok_iff.mpr ⟨rfl, Modulus.reduced_iff.mp h⟩⟩
  | macCheck _ => exact hphase.elim

/-! ## The ledger and the board -/

def Ledger.Reduced (p : Modulus) (ledger : Ledger) : Prop :=
  ∀ record ∈ ledger.records, record.Reduced p

theorem Ledger.Reduced.append {ledger : Ledger} (h : ledger.Reduced p) {value mac : Element}
    (hvalue : p.Reduced value) (hmac : p.Reduced mac) : (ledger.append value mac).Reduced p := by
  intro record hrecord
  obtain hrecord | hrecord := List.mem_append.mp hrecord
  · exact h record hrecord
  · obtain rfl := List.mem_singleton.mp hrecord
    exact ⟨hvalue, hmac⟩

namespace Board

def Reduced (p : Modulus) (board : Board) : Prop := ∀ entry ∈ board.entries, p.Reduced entry.2

theorem Reduced.publish {board : Board} (h : board.Reduced p) {value : Element} (hvalue : p.Reduced value)
    (handle : Handle) : (board.publish handle value).Reduced p := by
  unfold Board.publish
  split
  · exact h
  · intro entry hentry
    obtain hentry | hentry := List.mem_append.mp hentry
    · exact h entry hentry
    · obtain rfl := List.mem_singleton.mp hentry
      exact hvalue

end Board

/-! ## The gates of a circuit -/

/-- The share of an opening is reduced, and so is the value once it is known. -/
structure Opening.Reduced (p : Modulus) (opening : Opening) : Prop where
  value : p.Reduced opening.share.value
  mac : p.Reduced opening.share.mac
  opened : ∀ value ∈ opening.opened, p.Reduced value

def CircuitGate.Reduced (p : Modulus) : CircuitGate → Prop
  | opening gate | output gate => gate.Reduced p
  | compute _ => True

def Desk.KeepsReduced (p : Modulus) (ledger : Ledger) (board : Board) : Prop :=
  ledger.Reduced p ∧ board.Reduced p

variable {me : Party}

abbrev Desk.Canonical (p : Modulus) : Desk Board → Prop :=
  Desk.Mannered (.canonical p) Phase.IsCircuit (Desk.KeepsReduced p)

abbrev Bench.Canonical (p : Modulus) : Bench CircuitGate Board → Prop :=
  Bench.Mannered (.canonical p) Phase.IsCircuit (Desk.KeepsReduced p) (CircuitGate.Reduced p)

namespace Opening

variable {opening : Opening}

theorem Reduced.publish (h : opening.Reduced p) {board : Board} (hboard : board.Reduced p) :
    (opening.publish board).Reduced p := by
  unfold Opening.publish
  split
  · next value hopened => exact hboard.publish (h.opened value hopened) _
  · exact hboard

theorem upholds_evaluate (h : opening.Reduced me.modulus) (round : Nat) :
    (opening.evaluate me round).Upholds (.canonical me.modulus) (Desk.Canonical me.modulus)
      fun result => result.1.Reduced me.modulus := by
  unfold evaluate
  split
  · exact (Desk.upholds_broadcast fun _ hphase => Payload.canonical_encode h.value hphase).bind
      fun _ _ => .pure h
  · have hread : ∀ (peer : PartyId) (payload : Payload) (value : Element),
        (me.modulus.decode payload).mapError Error.encoding = .ok value → me.modulus.Reduced value := by
      intro peer payload value hvalue
      obtain ⟨-, hlt⟩ := Modulus.decode_eq_ok_iff.mp (mapError_eq_ok_iff.mp hvalue)
      exact Modulus.reduced_iff.mpr hlt
    refine (Desk.upholds_gather hread me.peers h.value).bind fun value hvalue => ?_
    have hrecord : (Manner.canonical me.modulus).marks (.opened ⟨value, opening.share.mac⟩) :=
      ⟨hvalue, h.mac⟩
    refine (Program.Upholds.record hrecord fun desk hdesk => ?_).bind fun _ _ => .pure ?_
    · exact ⟨hdesk.rounds, hdesk.keeps.1.append hvalue h.mac, hdesk.keeps.2⟩
    · refine ⟨h.value, h.mac, fun _ hopened => ?_⟩
      obtain rfl := Option.mem_some.mp hopened
      exact hvalue

end Opening

namespace CircuitGate

variable {gate : CircuitGate}

theorem Reduced.release (h : gate.Reduced p) {board : Board} (hboard : board.Reduced p) :
    (gate.release board).Reduced p := by
  cases gate with
  | output => exact Opening.Reduced.publish h hboard
  | opening | compute => exact hboard

theorem upholds_evaluate (h : gate.Reduced me.modulus) (round : Nat) :
    (gate.evaluate me round).Upholds (.canonical me.modulus) (Desk.Canonical me.modulus)
      fun result => result.1.Reduced me.modulus := by
  cases gate with
  | opening =>
    refine (Opening.upholds_evaluate h round).bind fun result hresult =>
      (Program.Upholds.modify fun desk hdesk => ?_).bind fun _ _ => .pure hresult
    exact ⟨hdesk.rounds, hdesk.keeps.1, hresult.publish hdesk.keeps.2⟩
  | output => exact (Opening.upholds_evaluate h round).bind fun _ hresult => .pure hresult
  | compute gate =>
    have hgate : gate.evaluate.Upholds (.canonical me.modulus) (Desk.Canonical me.modulus)
        fun _ => True :=
      .get_bind fun _ _ => (Program.Upholds.ofExcept fun _ _ => trivial).bind fun _ _ => .pure trivial
    exact hgate.bind fun _ _ => .pure trivial

end CircuitGate
end AuthenticatedMpc
