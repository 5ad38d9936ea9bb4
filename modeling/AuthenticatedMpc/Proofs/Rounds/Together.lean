import AuthenticatedMpc.Proofs.Rounds.Conversation

/-!
# Parties that run together

The parties at a table share the modulus, and each holds a part of the key. They run together if one
conversation takes all of them to their ends.
-/

namespace AuthenticatedMpc

/-- The parties of a computation. -/
structure Table where
  parties : Nat
  modulus : Modulus
  keyShare : PartyId → Element
  two_le : 2 ≤ parties
  keyShare_lt : ∀ i < parties, keyShare i < modulus.value

namespace Table

variable (table : Table)

def party (i : Fin table.parties) : Party where
  id := i
  parties := table.parties
  modulus := table.modulus
  keyShare := table.keyShare i
  two_le_parties := table.two_le
  id_lt := i.isLt
  keyShare_lt := table.keyShare_lt i i.isLt

variable {table}

theorem mem_peers {i : Fin table.parties} {q : PartyId} :
    q ∈ (table.party i).peers ↔ q < table.parties ∧ q ≠ i := Party.mem_peers

theorem val_mem_peers {i j : Fin table.parties} : ↑j ∈ (table.party i).peers ↔ j ≠ i := by
  rw [mem_peers, and_iff_right j.isLt, Ne, Fin.val_inj]

end Table

/-- One conversation takes all parties to their ends, where they satisfy the postcondition. -/
def Together {σ α : Type} (table : Table) (p : Fin table.parties → Program σ α)
    (s : Fin table.parties → σ) (post : Fin table.parties → α → σ → Prop) : Prop :=
  ∃ (exchanges : List (PartyId → Packet)) (value : Fin table.parties → α)
    (final : Fin table.parties → σ), ∀ i,
      (p i).Ends (s i) (conversation (table.party i) exchanges) (.ok (value i)) (final i) ∧
        post i (value i) (final i)

namespace Together

variable {σ τ α β : Type} {table : Table} {p : Fin table.parties → Program σ α}
  {k : Fin table.parties → α → Program σ β} {s : Fin table.parties → σ}
  {post middle : Fin table.parties → α → σ → Prop} {last : Fin table.parties → β → σ → Prop}

theorem mono (h : Together table p s middle)
    (himp : ∀ i value final, middle i value final → post i value final) :
    Together table p s post := by
  obtain ⟨exchanges, value, final, h⟩ := h
  exact ⟨exchanges, value, final, fun i => ⟨(h i).1, himp _ _ _ (h i).2⟩⟩

/-- Programs whose runs are among those of others may be replaced by them. -/
theorem of_ends {p' : Fin table.parties → Program σ α} {s' : Fin table.parties → σ}
    (h : Together table p' s' post)
    (hends : ∀ i {talk value final}, (p' i).Ends (s' i) talk (.ok value) final →
      (p i).Ends (s i) talk (.ok value) final) : Together table p s post := by
  obtain ⟨exchanges, value, final, h⟩ := h
  exact ⟨exchanges, value, final, fun i => ⟨hends i (h i).1, (h i).2⟩⟩

theorem of_silent (h : ∀ i, ∃ value final, (p i).Ends (s i) [] (.ok value) final ∧
    post i value final) : Together table p s post := by
  choose value final h using h
  exact ⟨[], value, final, h⟩

/-- What the parties come to may depend on how the first part has ended. -/
theorem exists_bind {ι : Sort*} {P : ι → Prop} {last : ι → Fin table.parties → β → σ → Prop}
    (first : Together table p s middle)
    (rest : ∀ (value : Fin table.parties → α) (s' : Fin table.parties → σ),
      (∀ i, middle i (value i) (s' i)) →
        ∃ x, P x ∧ Together table (fun i => k i (value i)) s' (last x)) :
    ∃ x, P x ∧ Together table (fun i => p i >>= k i) s (last x) := by
  obtain ⟨front, value, s', hfirst⟩ := first
  obtain ⟨x, hx, back, result, final, hrest⟩ := rest value s' fun i => (hfirst i).2
  refine ⟨x, hx, front ++ back, result, final, fun i => ⟨?_, (hrest i).2⟩⟩
  rw [conversation_append]
  exact (hfirst i).1.bind (hrest i).1

theorem bind (first : Together table p s middle)
    (rest : ∀ (value : Fin table.parties → α) (s' : Fin table.parties → σ),
      (∀ i, middle i (value i) (s' i)) → Together table (fun i => k i (value i)) s' last) :
    Together table (fun i => p i >>= k i) s last := by
  have h : ∃ _ : Unit, True ∧ Together table (fun i => p i >>= k i) s last :=
    first.exists_bind fun value s' h => ⟨(), trivial, rest value s' h⟩
  obtain ⟨-, -, h⟩ := h
  exact h

theorem zoom {part : Lens σ τ} {p : Fin table.parties → Program τ α}
    (h : Together table p (fun i => part.get (s i))
      fun i value t => post i value (part.set (s i) t)) :
    Together table (fun i => (p i).zoom part) s post := by
  obtain ⟨exchanges, value, final, h⟩ := h
  exact ⟨exchanges, value, fun i => part.set (s i) (final i), fun i =>
    ⟨Program.ends_zoom.mpr ⟨_, rfl, (h i).1⟩, (h i).2⟩⟩

end Together
end AuthenticatedMpc
