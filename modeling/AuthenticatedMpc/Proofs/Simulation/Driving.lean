import AuthenticatedMpc.Proofs.Runs.Dialogue
import AuthenticatedMpc.Proofs.Simulation.Mesh
import Mathlib.Logic.Basic
import Mathlib.Logic.Relation

/-!
# One party over the mesh

While all others stand still, a party goes on over the mesh as long as its queues hold what it is to
hear. What it says goes to the ends of the queues of its peers.
-/

namespace AuthenticatedMpc

variable {σ α : Type}

/-- A signal that a party exchanges with another one of `n` parties. -/
def Signal.IsExchange (n : Nat) (me : PartyId) : Signal → Prop
  | .sent peer _ | .received peer _ => peer < n ∧ peer ≠ me
  | .closed => False

/-- The mesh before and after one party has said and heard these signals. -/
structure Mesh.Exchanged (n : Nat) (me : PartyId) (talk : List Signal) (mesh mesh' : Mesh) : Prop where
  connected : mesh'.Connected n
  isOpen_eq : ∀ q, mesh'.isOpen q = mesh.isOpen q
  said : ∀ q, q ≠ me → mesh'.queue me q = mesh.queue me q ++ sentTo q talk
  heard : ∀ q, q ≠ me → receivedFrom q talk ++ mesh'.queue q me = mesh.queue q me
  others : ∀ q r, q ≠ me → r ≠ me → mesh'.queue q r = mesh.queue q r

/-- The moves of a party that says and hears these signals, with every reply a success. -/
inductive Actor.Talks : Actor σ α → List Signal → Actor σ α → Prop
  | refl (a : Actor σ α) : Talks a [] a
  | step {event : Option Event} {update : σ → σ} {next : σ → Program σ α} {s : σ}
      {talk : List Signal} {b : Actor σ α} (rest : Talks ⟨next s, update s⟩ talk b) :
      Talks ⟨.step event update next, s⟩ talk b
  | send {peer : PartyId} {packet : Packet} {next : Except NetworkError Unit → Program σ α} {s : σ}
      {talk : List Signal} {b : Actor σ α} (rest : Talks ⟨next (.ok ()), s⟩ talk b) :
      Talks ⟨.send peer packet next, s⟩ (.sent peer packet :: talk) b
  | receive {peer : PartyId} {packet : Packet} {next : Except NetworkError Packet → Program σ α}
      {s : σ} {talk : List Signal} {b : Actor σ α} (rest : Talks ⟨next (.ok packet), s⟩ talk b) :
      Talks ⟨.receive peer next, s⟩ (.received peer packet :: talk) b
  | close {next : Program σ α} {s : σ} {talk : List Signal} {b : Actor σ α}
      (rest : Talks ⟨next, s⟩ talk b) : Talks ⟨.close next, s⟩ (.closed :: talk) b

def Actor.Goes (me : PartyId) (before after : Actor σ α × Mesh) : Prop :=
  ∃ move, before.1.program.next? (Mesh.port me) before.1.state before.2 = some (move, after)

/-- Moves of a party over the mesh, one after the other. -/
def Actor.Drives (me : PartyId) : Actor σ α × Mesh → Actor σ α × Mesh → Prop :=
  Relation.ReflTransGen (Actor.Goes me)

variable {n : Nat} {me : PartyId} {mesh mesh' mesh'' : Mesh} {talk front back : List Signal}

namespace Mesh

theorem Connected.exchanged_nil (h : mesh.Connected n) : mesh.Exchanged n me [] mesh where
  connected := h
  isOpen_eq _ := rfl
  said _ _ := (List.append_nil _).symm
  heard _ _ := rfl
  others _ _ _ _ := rfl

theorem Exchanged.trans (h : mesh.Exchanged n me front mesh')
    (h' : mesh'.Exchanged n me back mesh'') : mesh.Exchanged n me (front ++ back) mesh'' where
  connected := h'.connected
  isOpen_eq q := (h'.isOpen_eq q).trans (h.isOpen_eq q)
  said q hq := by rw [h'.said q hq, h.said q hq, sentTo_append, List.append_assoc]
  heard q hq := by rw [receivedFrom_append, List.append_assoc, h'.heard q hq, h.heard q hq]
  others q r hq hr := (h'.others q r hq hr).trans (h.others q r hq hr)

theorem Connected.send_exchanged {peer : PartyId} (h : mesh.Connected n) (hme : me < n)
    (hpeer : peer < n ∧ peer ≠ me) (hopen : mesh.isOpen me = true) (packet : Packet) :
    ∃ mesh', mesh.send me peer packet = (.ok (), mesh') ∧
      mesh.Exchanged n me [.sent peer packet] mesh' := by
  obtain ⟨mesh', hsend, hconnected, hopen', hqueue⟩ := h.send hme hpeer.1 hpeer.2 hopen packet
  refine ⟨mesh', hsend, ⟨hconnected, hopen', fun q hq => ?_, fun q hq => ?_, fun q r hq hr => ?_⟩⟩
  · rcases eq_or_ne peer q with rfl | hne
    · rw [hqueue, if_pos ⟨rfl, rfl⟩, sentTo_sent, if_pos rfl]
      rfl
    · rw [hqueue, if_neg fun h => hne h.2.symm, sentTo_sent, if_neg hne]
      exact (List.append_nil _).symm
  · rw [hqueue, if_neg fun h => hq h.1]
    rfl
  · rw [hqueue, if_neg fun h => hq h.1]

theorem Connected.receive_exchanged {peer : PartyId} {packet : Packet} {rest : List Packet}
    (h : mesh.Connected n) (hme : me < n) (hpeer : peer < n ∧ peer ≠ me)
    (hqueue : mesh.queue peer me = packet :: rest) :
    ∃ mesh', mesh.receive me peer = some (.ok packet, mesh') ∧
      mesh.Exchanged n me [.received peer packet] mesh' := by
  obtain ⟨mesh', hreceive, hconnected, hopen, hqueue'⟩ := h.receive hme hpeer.1 hpeer.2 hqueue
  refine ⟨mesh', hreceive, ⟨hconnected, hopen, fun q hq => ?_, fun q hq => ?_, fun q r hq hr => ?_⟩⟩
  · rw [hqueue', if_neg fun h => hq h.2]
    exact (List.append_nil _).symm
  · rcases eq_or_ne peer q with rfl | hne
    · rw [hqueue', if_pos ⟨rfl, rfl⟩, receivedFrom_received, if_pos rfl, hqueue]
      rfl
    · rw [hqueue', if_neg fun h => hne h.1.symm, receivedFrom_received, if_neg hne]
      rfl
  · rw [hqueue', if_neg fun h => hr h.2]

end Mesh

namespace Actor

variable {a b : Actor σ α}

theorem Talks.bind {β : Type} (h : Talks a talk b) (k : α → Program σ β) :
    Talks ⟨a.program >>= k, a.state⟩ talk ⟨b.program >>= k, b.state⟩ := by
  induction h with
  | refl => exact .refl _
  | step _ ih => exact .step ih
  | send _ ih => exact .send ih
  | receive _ ih => exact .receive ih
  | close _ ih => exact .close ih

theorem talks_of_ends {p : Program σ α} {s final : σ} {o : Except Error α}
    (hends : p.Ends s talk o final) : Talks ⟨p, s⟩ talk ⟨.ofExcept o, final⟩ := by
  induction p generalizing s talk with
  | pure _ | fail _ =>
    obtain ⟨rfl, rfl, rfl⟩ := hends
    exact .refl _
  | never => exact hends.elim
  | step event update next ih => exact .step (ih s hends)
  | send peer packet next ih =>
    obtain ⟨rest, rfl, hends⟩ := hends
    exact .send (ih _ hends)
  | receive peer next ih =>
    obtain ⟨packet, rest, rfl, hends⟩ := hends
    exact .receive (ih _ hends)
  | close next ih =>
    obtain ⟨rest, rfl, hends⟩ := hends
    exact .close (ih hends)

/-- A party goes through a talk if its queues hold what it is to hear. -/
theorem Talks.exists_drives (h : Talks a talk b) (hmesh : mesh.Connected n) (hme : me < n)
    (hopen : mesh.isOpen me = true) (htalk : ∀ signal ∈ talk, signal.IsExchange n me)
    (hqueue : ∀ q, q ≠ me → receivedFrom q talk <+: mesh.queue q me) :
    ∃ mesh', Drives me (a, mesh) (b, mesh') ∧ mesh.Exchanged n me talk mesh' := by
  induction h generalizing mesh with
  | refl => exact ⟨mesh, .refl, hmesh.exchanged_nil⟩
  | @step event update next s _ _ _ ih =>
    obtain ⟨mesh', hdrives, hexchanged⟩ := ih hmesh hopen htalk hqueue
    exact ⟨mesh', .head ⟨.inner event, rfl⟩ hdrives, hexchanged⟩
  | @send peer packet next s _ _ _ ih =>
    obtain ⟨hpeer, htalk⟩ := List.forall_mem_cons.mp htalk
    obtain ⟨middle, hsend, hmiddle⟩ := hmesh.send_exchanged hme hpeer hopen packet
    have hqueue' : ∀ q, q ≠ me → receivedFrom q _ <+: middle.queue q me := fun q hq => by
      have hprefix := hqueue q hq
      rwa [← hmiddle.heard q hq] at hprefix
    obtain ⟨mesh', hdrives, hexchanged⟩ :=
      ih hmiddle.connected ((hmiddle.isOpen_eq me).trans hopen) htalk hqueue'
    refine ⟨mesh', .head ⟨.sent peer packet (.ok ()), ?_⟩ hdrives, hmiddle.trans hexchanged⟩
    simp only [Program.next?, Mesh.port, hsend]
  | @receive peer packet next s _ _ _ ih =>
    obtain ⟨hpeer, htalk⟩ := List.forall_mem_cons.mp htalk
    obtain ⟨later, hlater⟩ := hqueue peer hpeer.2
    rw [receivedFrom_received, if_pos rfl, List.cons_append] at hlater
    obtain ⟨middle, hreceive, hmiddle⟩ := hmesh.receive_exchanged hme hpeer hlater.symm
    have hqueue' : ∀ q, q ≠ me → receivedFrom q _ <+: middle.queue q me := fun q hq => by
      have hprefix := hqueue q hq
      rw [← hmiddle.heard q hq, ← List.singleton_append, receivedFrom_append] at hprefix
      exact (List.prefix_append_right_inj _).mp hprefix
    obtain ⟨mesh', hdrives, hexchanged⟩ :=
      ih hmiddle.connected ((hmiddle.isOpen_eq me).trans hopen) htalk hqueue'
    refine ⟨mesh', .head ⟨.received peer (.ok packet), ?_⟩ hdrives, hmiddle.trans hexchanged⟩
    simp only [Program.next?, Mesh.port, hreceive]
  | close => exact ((List.forall_mem_cons.mp htalk).1).elim

theorem Goes.run_eq {ω : Type} (watch : Event → σ → List ω) {before after : Actor σ α × Mesh}
    (h : Goes me before after) (seen : List ω) :
    ∃ seen', before.1.program.run (Mesh.port me) watch before.1.state before.2 seen =
      after.1.program.run (Mesh.port me) watch after.1.state after.2 seen' := by
  obtain ⟨move, h⟩ := h
  obtain ⟨⟨program, s⟩, mesh⟩ := before
  cases program with
  | pure | fail | never => cases h
  | step event update next | send peer packet next | close next =>
    cases h
    exact ⟨_, rfl⟩
  | receive peer next =>
    simp only [Program.next?] at h
    split at h
    · cases h
    · next hreceive =>
      cases h
      exact ⟨seen, by simp only [Program.run, hreceive]⟩

theorem Drives.run_eq {ω : Type} (watch : Event → σ → List ω) {before after : Actor σ α × Mesh}
    (h : Drives me before after) (seen : List ω) :
    ∃ seen', before.1.program.run (Mesh.port me) watch before.1.state before.2 seen =
      after.1.program.run (Mesh.port me) watch after.1.state after.2 seen' := by
  induction h using Relation.ReflTransGen.head_induction_on generalizing seen with
  | refl => exact ⟨seen, rfl⟩
  | head first _ ih =>
    obtain ⟨seen₁, hfirst⟩ := first.run_eq watch seen
    obtain ⟨seen₂, hrest⟩ := ih seen₁
    exact ⟨seen₂, hfirst.trans hrest⟩

end Actor
end AuthenticatedMpc
