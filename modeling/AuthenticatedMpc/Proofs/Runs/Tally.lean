import AuthenticatedMpc.Proofs.Runs.Vigilance

/-!
# What the moves of a party tell of its ledger

A party marks every value that it opens and every check that it begins. Whatever else it does, its
moves tell of the same openings and checks.
-/

namespace AuthenticatedMpc

variable {σ α : Type}

namespace Move

def opened? : Move → Option Record
  | inner (some (.opened record)) => some record
  | _ => none

def checking? : Move → Option (UInt64 × List Record)
  | inner (some (.checking number records)) => some (number, records)
  | _ => none

end Move

def openedIn (moves : List Move) : List Record := moves.filterMap Move.opened?

def checksIn (moves : List Move) : List (UInt64 × List Record) := moves.filterMap Move.checking?

theorem openedIn_append (front back : List Move) :
    openedIn (front ++ back) = openedIn front ++ openedIn back := List.filterMap_append

theorem checksIn_append (front back : List Move) :
    checksIn (front ++ back) = checksIn front ++ checksIn back := List.filterMap_append

@[simp] theorem openedIn_opened (past : List Move) (record : Record) :
    openedIn (past ++ [Move.inner (some (.opened record))]) = openedIn past ++ [record] :=
  openedIn_append ..

@[simp] theorem checksIn_opened (past : List Move) (record : Record) :
    checksIn (past ++ [Move.inner (some (.opened record))]) = checksIn past :=
  (checksIn_append ..).trans (List.append_nil _)

@[simp] theorem openedIn_checking (past : List Move) (number : UInt64) (records : List Record) :
    openedIn (past ++ [Move.inner (some (.checking number records))]) = openedIn past :=
  (openedIn_append ..).trans (List.append_nil _)

@[simp] theorem checksIn_checking (past : List Move) (number : UInt64) (records : List Record) :
    checksIn (past ++ [Move.inner (some (.checking number records))]) =
      checksIn past ++ [(number, records)] :=
  checksIn_append ..

/-- Since the past the party has opened nothing, and has begun no check. -/
structure Still (past now : List Move) : Prop where
  le : past <+: now
  opened_eq : openedIn now = openedIn past
  checks_eq : checksIn now = checksIn past

namespace Still

variable {past middle now moves : List Move} {move : Move}

theorem refl (past : List Move) : Still past past := ⟨List.prefix_refl past, rfl, rfl⟩

theorem trans (h : Still past middle) (h' : Still middle now) : Still past now :=
  ⟨h.le.trans h'.le, h'.opened_eq.trans h.opened_eq, h'.checks_eq.trans h.checks_eq⟩

theorem append (past : List Move)
    (h : ∀ move ∈ moves, move.opened? = none ∧ move.checking? = none) : Still past (past ++ moves) where
  le := List.prefix_append ..
  opened_eq := by
    rw [openedIn_append, openedIn, openedIn,
      List.filterMap_eq_nil_iff.mpr fun move hmove => (h move hmove).1, List.append_nil]
  checks_eq := by
    rw [checksIn_append, checksIn, checksIn,
      List.filterMap_eq_nil_iff.mpr fun move hmove => (h move hmove).2, List.append_nil]

theorem snoc (h : Still past now) (hopened : move.opened? = none) (hchecking : move.checking? = none) :
    Still past (now ++ [move]) :=
  h.trans (append now (List.forall_mem_singleton.mpr ⟨hopened, hchecking⟩))

theorem silent (h : Still past now) : Still past (now ++ [Move.inner none]) := h.snoc rfl rfl

theorem evaluating (h : Still past now) (phase : Phase) (place round : Nat) :
    Still past (now ++ [Move.inner (some (.evaluating phase place round))]) := h.snoc rfl rfl

end Still

/-! ## Programs that neither open nor check -/

def Event.IsEvaluating (event : Event) : Prop :=
  ∃ phase place round, event = .evaluating phase place round

namespace Program

variable {P : Event → Prop} {p : Program σ α} {past moves : List Move} {s : σ} {a b : Actor σ α}
  {move : Move}

theorem Vigilant.step (h : a.program.Vigilant P) (hstep : Step a move b) :
    b.program.Vigilant P ∧ ∀ event, move = .inner (some event) → P event := by
  cases hstep with
  | inner event update next s =>
    refine ⟨h.2 s, ?_⟩
    rintro _ ⟨⟩
    exact h.1 _ rfl
  | send peer packet next s reply =>
    refine ⟨?_, nofun⟩
    cases reply with
    | ok => exact h.2
    | error cause =>
      rw [h.1 cause]
      trivial
  | receive peer next s reply =>
    refine ⟨?_, nofun⟩
    cases reply with
    | ok packet => exact h.2.2 packet
    | error cause =>
      rw [h.1 cause]
      trivial
  | close => exact h.elim

/-- All events of a vigilant program are as the predicate says, however it ends. -/
theorem Vigilant.forall_event (h : a.program.Vigilant P) (hpath : Path a moves b) :
    ∀ event, .inner (some event) ∈ moves → P event := by
  induction hpath with
  | refl => exact fun _ hevent => (List.not_mem_nil hevent).elim
  | head first _ ih =>
    obtain ⟨hnext, hmove⟩ := h.step first
    intro event hevent
    rcases List.mem_cons.mp hevent with heq | hrest
    · exact hmove event heq.symm
    · exact ih hnext event hrest

theorem Vigilant.still (h : a.program.Vigilant Event.IsEvaluating) (hpath : Path a moves b)
    (past : List Move) : Still past (past ++ moves) := by
  refine .append past fun move hmove => ?_
  cases move with
  | sent | received | closed => exact ⟨rfl, rfl⟩
  | inner event =>
    cases event with
    | none => exact ⟨rfl, rfl⟩
    | some event =>
      obtain ⟨phase, place, round, rfl⟩ := h.forall_event hpath event hmove
      exact ⟨rfl, rfl⟩

/-- What holds of the states of a program that only evaluates gates holds while its moves tell of the
same openings and checks. -/
theorem Meets.still {inv : σ → Prop} {post : α → σ → Prop} (h : p.Meets (.ofState inv post) past s)
    (hvigilant : p.Vigilant Event.IsEvaluating) :
    p.Meets
      { during := fun now s => Still past now ∧ inv s
        returns := fun value now s => Still past now ∧ post value s
        fails := fun _ now s => Still past now ∧ inv s } past s := by
  refine ((of_paths p past s).and h).mono ?_ ?_ ?_ fun _ _ => ⟨trivial, trivial⟩
  · rintro _ s ⟨⟨moves, _, rfl, hpath⟩, hinv⟩
    exact ⟨hvigilant.still hpath past, hinv⟩
  · rintro value _ s - ⟨⟨moves, rfl, hpath⟩, hpost⟩
    exact ⟨hvigilant.still hpath past, hpost⟩
  · rintro error _ s - ⟨⟨moves, rfl, hpath⟩, hinv⟩
    exact ⟨hvigilant.still hpath past, hinv⟩

end Program
end AuthenticatedMpc
