import AuthenticatedMpc.Proofs.Simulation.Confluence
import AuthenticatedMpc.Proofs.Simulation.Driving

/-!
# One round after the other

If what each party hears in a round is what the others said in the round before, the parties can go
through the round one after the other. Where a system comes to a standstill does not depend on the order
of its moves, so it is enough to find this one order.
-/

namespace AuthenticatedMpc

variable {σ α : Type}

theorem receivedFrom_eq_nil_of_le {n : Nat} {me q : PartyId} {talk : List Signal}
    (htalk : ∀ signal ∈ talk, signal.IsExchange n me) (hq : n ≤ q) : receivedFrom q talk = [] := by
  refine List.filterMap_eq_nil_iff.mpr fun signal hmem => ?_
  cases signal with
  | sent | closed => rfl
  | received peer packet =>
    have hpeer : peer < n ∧ peer ≠ me := htalk _ hmem
    exact if_neg (Nat.ne_of_lt (Nat.lt_of_lt_of_le hpeer.1 hq))

namespace System

variable {start middle final : System σ α Mesh}

/-- Some order of moves leads from the one system to the other. -/
def LeadsTo (start final : System σ α Mesh) : Prop := ∃ logs, Interleaving start logs final

theorem LeadsTo.refl (system : System σ α Mesh) : LeadsTo system system := ⟨_, .refl system⟩

theorem LeadsTo.head {party : PartyId} {move : Move} {state : σ}
    (hmove : start.moveAt? Mesh.port party = some (move, state, middle))
    (rest : LeadsTo middle final) : LeadsTo start final := by
  obtain ⟨logs, hlogs⟩ := rest
  exact ⟨_, .head hmove hlogs⟩

theorem LeadsTo.trans (first : LeadsTo start middle) (rest : LeadsTo middle final) :
    LeadsTo start final := by
  obtain ⟨logs, first⟩ := first
  induction first with
  | refl => exact rest
  | head hmove _ ih => exact .head hmove (ih rest)

theorem leadsTo_of_drives {system : System σ α Mesh} {party : PartyId} {a b : Actor σ α} {mesh : Mesh}
    (hactor : system.actors[party]? = some a)
    (hdrives : Actor.Drives party (a, system.medium) (b, mesh)) :
    system.LeadsTo ⟨system.actors.set party b, mesh⟩ := by
  obtain ⟨actors, medium⟩ := system
  generalize hx : ((a, medium) : Actor σ α × Mesh) = x at hdrives
  induction hdrives using Relation.ReflTransGen.head_induction_on generalizing a actors medium with
  | refl =>
    obtain ⟨rfl, rfl⟩ := Prod.mk.inj hx
    obtain ⟨hlt, hget⟩ := List.getElem?_eq_some_iff.mp hactor
    subst hget
    rw [List.set_getElem_self]
    exact .refl _
  | @head x y hgoes _ ih =>
    subst hx
    obtain ⟨move, hgoes⟩ := hgoes
    obtain ⟨next, after⟩ := y
    have hlt : party < actors.length := (List.getElem?_eq_some_iff.mp hactor).1
    have hrest := ih (actors.set party next) after (List.getElem?_set_self hlt) rfl
    rw [List.set_set] at hrest
    exact .head (moveAt?_eq_some_iff.mpr ⟨a, next, after, hactor, rfl, hgoes, rfl⟩) hrest

/-- Between two rounds: where the parties stand, and what is on its way between them. -/
structure BetweenRounds (n : Nat) (actor : Fin n → Actor σ α)
    (transit : PartyId → PartyId → List Packet)
    (system : System σ α Mesh) : Prop where
  actors : system.actors = List.ofFn actor
  connected : system.medium.Connected n
  isOpen : ∀ i < n, system.medium.isOpen i = true
  queue : ∀ i < n, ∀ j < n, i ≠ j → system.medium.queue i j = transit i j

theorem between_start {n : Nat} (actor : Fin n → Actor σ α) :
    BetweenRounds n actor (fun _ _ => []) ⟨List.ofFn actor, .connect n⟩ where
  actors := rfl
  connected := Mesh.connected_connect n
  isOpen _ h := Mesh.isOpen_connect h
  queue i _ j _ _ := Mesh.queue_connect n i j

theorem BetweenRounds.exists_turn {n : Nat} {system : System σ α Mesh} {actor : Fin n → Actor σ α}
    {transit transit' : PartyId → PartyId → List Packet} (h : BetweenRounds n actor transit system)
    {i : Fin n} {talk : List Signal} {b : Actor σ α} (htalks : (actor i).Talks talk b)
    (hexchange : ∀ signal ∈ talk, signal.IsExchange n i)
    (hsaid : ∀ q < n, q ≠ i → transit' i q = transit i q ++ sentTo q talk)
    (hheard : ∀ q < n, q ≠ i → receivedFrom q talk ++ transit' q i = transit q i)
    (hothers : ∀ q r : PartyId, q ≠ i → r ≠ i → transit' q r = transit q r) :
    ∃ system', system.LeadsTo system' ∧ BetweenRounds n (Function.update actor i b) transit' system' := by
  obtain ⟨mesh, hdrives, hexchanged⟩ :=
    htalks.exists_drives h.connected i.isLt (h.isOpen i i.isLt) hexchange fun q hq => by
      by_cases hlt : q < n
      · rw [h.queue q hlt i i.isLt hq, ← hheard q hlt hq]
        exact List.prefix_append ..
      · rw [receivedFrom_eq_nil_of_le hexchange (Nat.le_of_not_lt hlt)]
        exact List.nil_prefix
  have hactor : system.actors[(i : PartyId)]? = some (actor i) := by simp [h.actors]
  refine ⟨_, leadsTo_of_drives hactor hdrives, ?_, hexchanged.connected,
    fun q hq => (hexchanged.isOpen_eq q).trans (h.isOpen q hq), fun q hq r hr hne => ?_⟩
  · rw [h.actors]
    refine List.ext_getElem (by simp) fun k hk hk' => ?_
    rw [List.getElem_set, List.getElem_ofFn, List.getElem_ofFn]
    split
    · next hik => rw [Function.update_apply, if_pos (Fin.ext hik.symm)]
    · next hik => rw [Function.update_of_ne fun heq => hik (congrArg Fin.val heq).symm]
  · rcases eq_or_ne q i with rfl | hqi
    · rw [hexchanged.said r hne.symm, hsaid r hr hne.symm, h.queue i hq r hr hne]
    rcases eq_or_ne r i with rfl | hri
    · have hqueue := hexchanged.heard q hqi
      rw [h.queue q hq i hr hqi, ← hheard q hq hqi] at hqueue
      exact List.append_cancel_left hqueue
    · rw [hexchanged.others q r hqi hri, hothers q r hqi hri, h.queue q hq r hr hne]

/-- What is on its way when the first `count` parties have gone through a round: what the others have
yet to hear, and what these have said. -/
def underway (transit transit' : PartyId → PartyId → List Packet) (count : Nat) (i j : PartyId) :
    List Packet :=
  (if j < count then [] else transit i j) ++ if i < count then transit' i j else []

/-- If each party hears in a round what is on its way to it, all can go through the round, and then what
they said is on its way. -/
theorem BetweenRounds.exists_round {n : Nat} {system : System σ α Mesh}
    {actor actor' : Fin n → Actor σ α}
    {transit transit' : PartyId → PartyId → List Packet} (h : BetweenRounds n actor transit system)
    {talk : Fin n → List Signal} (htalks : ∀ i, (actor i).Talks (talk i) (actor' i))
    (hexchange : ∀ i, ∀ signal ∈ talk i, signal.IsExchange n i)
    (hheard : ∀ (i : Fin n), ∀ q < n, q ≠ i → receivedFrom q (talk i) = transit q i)
    (hsaid : ∀ (i : Fin n), ∀ q < n, q ≠ i → sentTo q (talk i) = transit' i q) :
    ∃ system', system.LeadsTo system' ∧ BetweenRounds n actor' transit' system' := by
  have hcount : ∀ count ≤ n, ∃ system', system.LeadsTo system' ∧
      BetweenRounds n (fun i => if i < count then actor' i else actor i) (underway transit transit' count)
        system' := by
    intro count hle
    induction count with
    | zero =>
      have hzero : underway transit transit' 0 = transit := by
        funext i j
        simp [underway]
      exact ⟨system, .refl system, by simpa [hzero] using h⟩
    | succ count ih =>
      obtain ⟨system', hleads, hbetween⟩ := ih (Nat.le_of_succ_le hle)
      let i : Fin n := ⟨count, hle⟩
      have hnow : (if (i : Nat) < count then actor' i else actor i).Talks (talk i) (actor' i) := by
        rw [if_neg (Nat.lt_irrefl count)]
        exact htalks i
      have hturn : ∃ system'', system'.LeadsTo system'' ∧
          BetweenRounds n (Function.update (fun i => if i < count then actor' i else actor i) i (actor' i))
            (underway transit transit' (count + 1)) system'' := by
        refine hbetween.exists_turn hnow (hexchange i) (fun q hq hne => ?_) (fun q hq hne => ?_)
          fun q r hqi hri => ?_
        · rw [hsaid i q hq hne]
          simp [underway, i, Order.lt_add_one_iff, hne.le_iff_lt]
        · rw [hheard i q hq hne]
          simp [underway, i, Order.lt_add_one_iff, hne.le_iff_lt]
        · have hq : q ≠ count := hqi
          have hr : r ≠ count := hri
          simp only [underway, Order.lt_add_one_iff, hq.le_iff_lt, hr.le_iff_lt]
      obtain ⟨system'', hleads', hbetween'⟩ := hturn
      have hactors :
          Function.update (fun j : Fin n => if j < count then actor' j else actor j) i (actor' i) =
            fun j : Fin n => if j < count + 1 then actor' j else actor j := by
        funext j
        rcases eq_or_ne j i with rfl | hne
        · rw [Function.update_self, if_pos (Nat.lt_succ_self count)]
        · have hval : (j : Nat) ≠ count := fun heq => hne (Fin.ext heq)
          rw [Function.update_of_ne hne]
          simp only [Order.lt_add_one_iff, hval.le_iff_lt]
      exact ⟨system'', hleads.trans hleads', hactors ▸ hbetween'⟩
  obtain ⟨system', hleads, hbetween⟩ := hcount n le_rfl
  refine ⟨system', hleads, by simpa using hbetween.actors, hbetween.connected, hbetween.isOpen,
    fun i hi j hj hne => ?_⟩
  rw [hbetween.queue i hi j hj hne, underway, if_pos hj, if_pos hi, List.nil_append]

/-! ## Where all orders of moves end -/

/-- In whatever order the parties move, after finitely many moves the system has this property. -/
inductive Inevitably (goal : System σ α Mesh → Prop) : System σ α Mesh → Prop
  | now {system : System σ α Mesh} (h : goal system) : Inevitably goal system
  | later {system : System σ α Mesh} (hmoves : ¬ system.Stuck)
      (rest : ∀ party move state next, system.moveAt? Mesh.port party = some (move, state, next) →
        Inevitably goal next) : Inevitably goal system

/-- Where some order of moves comes to a standstill, all do. -/
theorem LeadsTo.inevitably {goal : System σ α Mesh → Prop} (hleads : start.LeadsTo final)
    (hstuck : final.Stuck) (hgoal : goal final) : start.Inevitably goal := by
  obtain ⟨actors, hactors⟩ : ∃ actors, start.actors = actors := ⟨_, rfl⟩
  induction actors using Advances.wf.induction generalizing start with
  | _ actors ih =>
    obtain ⟨logs, hlogs⟩ := hleads
    by_cases hstart : start.Stuck
    · obtain ⟨rfl, -⟩ := hlogs.eq_of_stuck hstuck (.refl start) hstart
      exact .now hgoal
    · refine .later hstart fun party move state next hmove => ?_
      obtain ⟨rest, last, hrest, hlast⟩ := exists_interleaving next
      obtain ⟨rfl, -⟩ := hlogs.eq_of_stuck hstuck (.head hmove hrest) hlast
      exact ih _ (hactors ▸ advances_of_moveAt? hmove) ⟨rest, hrest⟩ rfl

theorem BetweenRounds.stuck {n : Nat} {value : Fin n → α} {state : Fin n → σ}
    {transit : PartyId → PartyId → List Packet}
    (h : BetweenRounds n (fun i => ⟨.pure (value i), state i⟩) transit final) : final.Stuck := by
  intro party
  by_contra hsome
  obtain ⟨⟨move, state', next⟩, hmove⟩ := Option.ne_none_iff_exists'.mp hsome
  obtain ⟨actor, _, _, hactor, -, hnext, -⟩ := moveAt?_eq_some_iff.mp hmove
  rw [h.actors] at hactor
  obtain ⟨hlt, rfl⟩ := List.getElem?_eq_some_iff.mp hactor
  rw [List.getElem_ofFn] at hnext
  cases hnext

end System
end AuthenticatedMpc
