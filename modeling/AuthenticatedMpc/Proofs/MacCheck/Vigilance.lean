import AuthenticatedMpc.Proofs.MacCheck.Joint
import AuthenticatedMpc.Proofs.Rounds.Standing

/-!
# Checks are vigilant

A failure of the transport or a packet of another phase ends a check. Its only events are those of
its gates. So a check that passes has made its four exchanges, whatever the transport does.
-/

namespace AuthenticatedMpc

variable {me : Party} {P : Event → Prop}

theorem phase_of_mem_contributions {phase : Phase} {others : PartyId → Element × Nonce}
    {packets : PartyId → Packet} (h : packets ∈ contributions phase others) (q : PartyId) :
    (packets q).phase = phase := by
  rcases List.mem_pair.mp h with rfl | rfl <;> rfl

namespace Verifier

theorem vigilant_nextSlice : nextSlice.Vigilant P := by
  refine .get_bind fun verifier => ?_
  split
  · trivial
  · exact .modify_bind (.ofExcept fun _ _ => trivial)

theorem vigilant_runSlice (hP : ∀ phase place round, P (.evaluating phase place round)) :
    (runSlice me).Vigilant P :=
  vigilant_nextSlice.bind fun _ => .modify_bind
    ((CheckGate.vigilant_process hP).anyError.zoom.bind fun _ => .get_bind fun _ =>
      .get_bind fun _ => .modify_bind (.ofExcept fun _ _ => trivial))

theorem vigilant_runSlices (hP : ∀ phase place round, P (.evaluating phase place round))
    (limit : Nat) : (runSlices me limit).Vigilant P := by
  induction limit with
  | zero => trivial
  | succ limit ih =>
    refine .get_bind fun verifier => ?_
    split
    · exact (vigilant_runSlice hP).bind fun _ => ih
    · trivial

theorem vigilant_execute (hP : ∀ phase place round, P (.evaluating phase place round)) :
    (execute me).Vigilant P :=
  .get_bind fun _ => vigilant_runSlices hP _

/-! ## Checks that pass -/

theorem revealing_eq_update (own : Element × Nonce) (others : PartyId → Element × Nonce)
    (phase : Phase) :
    revealing me phase own others =
      conversation me (contributions phase (Function.update others me.id own)) := by
  have hpeers : ∀ q ∈ me.peers, Function.update others me.id own q = others q := fun q hq =>
    Function.update_of_ne (Party.mem_peers.mp hq).2 ..
  rw [← revealing_eq_conversation, Function.update_self, revealing, revealing]
  congr 1 <;> exact exchange_congr fun q hq => by rw [hpeers q hq]

section Conversations

-- The loop has been taken apart where its exchanges were found.
attribute [local irreducible] Verifier.runSlices

/-- A check that passes is a conversation in which all parties contribute to a combiner, and then to the
sum of the check values. -/
theorem Fresh.exists_conversation {v v' : Verifier} {talk : List Signal} (h : Fresh me v.check)
    (hends : (execute me).Ends v talk (.ok ()) v') :
    ∃ random values, talk = conversation me (contributions (.macCheck v.check.number) random ++
      contributions (.macCheck v.check.number) values) := by
  obtain ⟨own, _, nonce, _, value, gates, limit, back, random, -, -, -, rfl, -, hback⟩ :=
    h.split_execute (decided_ok ()) hends
  obtain ⟨nonce', _, values, -, -, rfl, -, -⟩ := (ends_checkValue (decided_ok ()) rfl rfl).mp
    ((ends_runSlices_last (decided_ok ()) rfl rfl).mp hback)
  refine ⟨Function.update random me.id (own, nonce), Function.update values me.id (value, nonce'), ?_⟩
  rw [conversation_append, ← revealing_eq_update, ← revealing_eq_update]
  rfl

/-- Whatever the transport does, a check that passes has made the exchanges of two rounds of
contributions, and has not added to the chronicle. -/
theorem Fresh.meets_execute {v : Verifier} {past : List Move} (h : Fresh me v.check) :
    (execute me).Meets
      { during := fun _ _ => True
        returns := fun _ now _ => ∃ random values,
          talkOf now = talkOf past ++ conversation me
            (contributions (.macCheck v.check.number) random ++
              contributions (.macCheck v.check.number) values) ∧
          (Chronicle.ofMoves now).entries = (Chronicle.ofMoves past).entries
        fails := fun _ _ _ => True } past v := by
  refine (Program.Meets.of_paths (execute me) past v).mono (fun _ _ _ => trivial) ?_
    (fun _ _ _ _ _ => trivial)
  rintro _ _ final - ⟨moves, rfl, hpath⟩
  have hvigilant : (execute me).Vigilant fun event =>
      ∃ phase place round, event = .evaluating phase place round :=
    vigilant_execute fun phase place round => ⟨phase, place, round, rfl⟩
  obtain ⟨random, values, htalk⟩ := h.exists_conversation (hvigilant.ends_of_path hpath)
  refine ⟨random, values, by rw [talkOf_append, htalk], ?_⟩
  rw [Chronicle.ofMoves, List.foldl_append]
  exact Chronicle.entries_foldl_note fun move hmove => (hvigilant.of_path hpath move hmove).2

end Conversations

theorem Fresh.meets_execute_of_draw_eq_none {c : Contract Verifier Unit} {v : Verifier}
    {past : List Move} (h : Fresh me v.check) (hdraw : me.modulus.draw v.generator = none)
    (hnow : c.during past v) (hsilent : ∀ past, c.during past v → c.during (past ++ [Move.inner none]) v) :
    (execute me).Meets c past v := by
  have hnext := MacCheck.nextSlice_idle_eq_none h.stage h.commitments h.outstanding
    (h.modulus ▸ hdraw)
  have hslice : ∀ past, c.during past v → ∀ k, (runSlice me >>= k).Meets c past v := by
    intro past hpast k
    rw [runSlice, nextSlice, bind_assoc, bind_assoc]
    refine .get_bind hpast ?_
    rw [hnext]
    exact hsilent past hpast
  refine .get_bind hnow (.get_bind (hsilent past hnow) ?_)
  rw [if_pos (by simp [MacCheck.hasNext, h.stage])]
  exact hslice _ (hsilent _ (hsilent past hnow)) _

end Verifier
end AuthenticatedMpc
