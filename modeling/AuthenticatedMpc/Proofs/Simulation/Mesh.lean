import AuthenticatedMpc.Simulation.Mesh

/-!
# What the mesh does

On a mesh in which every party is present, a send appends a packet to one queue and a receive takes
one from the front of one queue. Nothing else changes.
-/

namespace AuthenticatedMpc
namespace Mesh

variable {mesh mesh' : Mesh} {n : Nat} {me peer party : PartyId} {packet : Packet}
  {rest : List Packet}

/-- All of `n` parties are present, with a queue from each party. -/
structure Connected (n : Nat) (mesh : Mesh) : Prop where
  parties_eq : mesh.parties = n
  station : ∀ party < n, ∃ station, mesh.stations[party]? = some station ∧
    station.incoming.length = n ∧ station.isPresent = true

theorem connected_connect (n : Nat) : (connect n).Connected n where
  parties_eq := List.length_replicate
  station _ h := ⟨_, List.getElem?_replicate_of_lt h, List.length_replicate, rfl⟩

theorem queue_connect (n : Nat) (sender receiver : PartyId) :
    (connect n).queue sender receiver = [] := by
  simp only [queue, connect, List.getElem?_replicate]
  split
  · rw [Option.bind_some, List.getElem?_replicate]
    split <;> rfl
  · rfl

theorem isOpen_connect (h : party < n) : (connect n).isOpen party = true := by
  simp [isOpen, connect, h]

theorem isOpen_modifyStation {update : Station → Station} (q : PartyId)
    (hupdate : ∀ station, (update station).isOpen = station.isOpen) :
    (mesh.modifyStation party update).isOpen q = mesh.isOpen q := by
  unfold isOpen modifyStation
  rw [List.getElem?_modify]
  split <;> cases mesh.stations[q]? <;> simp [hupdate]

theorem Connected.modifyStation (h : mesh.Connected n) {update : Station → Station}
    (hupdate : ∀ station, (update station).incoming.length = station.incoming.length ∧
      (update station).isPresent = station.isPresent) :
    (mesh.modifyStation party update).Connected n where
  parties_eq := (List.length_modify ..).trans h.parties_eq
  station q hq := by
    obtain ⟨station, hstation, hincoming, hpresent⟩ := h.station q hq
    unfold Mesh.modifyStation
    rw [List.getElem?_modify, hstation]
    by_cases hparty : party = q
    · exact ⟨update station, by simp [hparty], by rw [(hupdate station).1, hincoming],
        by rw [(hupdate station).2, hpresent]⟩
    · exact ⟨station, by simp [hparty], hincoming, hpresent⟩

theorem Connected.modifyQueue (h : mesh.Connected n) (update : List Packet → List Packet) :
    (mesh.modifyQueue me peer update).Connected n :=
  h.modifyStation fun _ => ⟨List.length_modify .., rfl⟩

theorem Connected.isPresent_eq (h : mesh.Connected n) (hparty : party < n) :
    mesh.isPresent party = true := by
  obtain ⟨station, hstation, -, hpresent⟩ := h.station party hparty
  simp [isPresent, hstation, hpresent]

theorem Connected.queue_modifyQueue (h : mesh.Connected n) (hme : me < n) (hpeer : peer < n)
    (update : List Packet → List Packet) (source target : PartyId) :
    (mesh.modifyQueue me peer update).queue source target =
      if source = me ∧ target = peer then update (mesh.queue source target)
      else mesh.queue source target := by
  obtain ⟨station, hstation, hincoming, -⟩ := h.station peer hpeer
  exact Mesh.queue_modifyQueue mesh hstation (hincoming ▸ hme) update source target

theorem Connected.send (h : mesh.Connected n) (hme : me < n) (hpeer : peer < n) (hne : peer ≠ me)
    (hopen : mesh.isOpen me = true) (packet : Packet) :
    ∃ mesh', mesh.send me peer packet = (.ok (), mesh') ∧ mesh'.Connected n ∧
      (∀ q, mesh'.isOpen q = mesh.isOpen q) ∧
      ∀ source target, mesh'.queue source target =
        if source = me ∧ target = peer then mesh.queue source target ++ [packet]
        else mesh.queue source target := by
  have hcounted : (mesh.modifyStation me fun station =>
      { station with count := station.count.countSent packet }).Connected n :=
    h.modifyStation fun _ => ⟨rfl, rfl⟩
  have hsend : mesh.send me peer packet = (.ok (), (mesh.modifyStation me fun station =>
      { station with count := station.count.countSent packet }).modifyQueue me peer
        (· ++ [packet])) := by
    rw [Mesh.send, if_pos ⟨h.parties_eq ▸ hpeer, hne⟩, if_pos hopen]
    exact if_pos (h.isPresent_eq hpeer)
  refine ⟨_, hsend, hcounted.modifyQueue _, fun q => ?_, fun source target => ?_⟩
  · rw [Mesh.modifyQueue, isOpen_modifyStation, isOpen_modifyStation] <;> exact fun _ => rfl
  · rw [hcounted.queue_modifyQueue hme hpeer, queue_modifyStation]
    exact fun _ => rfl

theorem Connected.receive (h : mesh.Connected n) (hme : me < n) (hpeer : peer < n)
    (hne : peer ≠ me) (hqueue : mesh.queue peer me = packet :: rest) :
    ∃ mesh', mesh.receive me peer = some (.ok packet, mesh') ∧ mesh'.Connected n ∧
      (∀ q, mesh'.isOpen q = mesh.isOpen q) ∧
      ∀ source target, mesh'.queue source target =
        if source = peer ∧ target = me then rest else mesh.queue source target := by
  have hcounted : (mesh.modifyStation me fun station =>
      { station with count := station.count.countReceived packet }).Connected n :=
    h.modifyStation fun _ => ⟨rfl, rfl⟩
  have hreceive : mesh.receive me peer = some (.ok packet, (mesh.modifyStation me fun station =>
      { station with count := station.count.countReceived packet }).modifyQueue peer me
        List.tail) := by
    rw [Mesh.receive, if_pos ⟨h.parties_eq ▸ hpeer, hne⟩, hqueue]
  refine ⟨_, hreceive, hcounted.modifyQueue _, fun q => ?_, fun source target => ?_⟩
  · rw [Mesh.modifyQueue, isOpen_modifyStation, isOpen_modifyStation] <;> exact fun _ => rfl
  · rw [hcounted.queue_modifyQueue hpeer hme, queue_modifyStation]
    · split
      · next heq => rw [heq.1, heq.2, hqueue, List.tail_cons]
      · rfl
    · exact fun _ => rfl

/-- Nothing is received while a queue is empty and its sender has not closed it. -/
theorem Connected.receive_eq_none (h : mesh.Connected n) (hpeer : peer < n) (hne : peer ≠ me)
    (hqueue : mesh.queue peer me = []) (hopen : mesh.isOpen peer = true) :
    mesh.receive me peer = none := by
  rw [Mesh.receive, if_pos ⟨h.parties_eq ▸ hpeer, hne⟩, hqueue]
  exact if_pos hopen

theorem Connected.close (h : mesh.Connected n) : (mesh.close me).Connected n :=
  h.modifyStation fun _ => ⟨rfl, rfl⟩

theorem isOpen_close_of_ne (hne : party ≠ me) :
    (mesh.close me).isOpen party = mesh.isOpen party := by
  simp [isOpen, close, modifyStation, Ne.symm hne]

end Mesh
end AuthenticatedMpc
