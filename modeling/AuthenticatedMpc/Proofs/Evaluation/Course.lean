import AuthenticatedMpc.Circuit.CircuitGate
import AuthenticatedMpc.Evaluation
import AuthenticatedMpc.Proofs.Evaluation.Keeping

/-!
# The course of an evaluation

An evaluation under the standard controller is a sequence of batches and checks. An invariant that
every batch, every check and every release keeps holds all the way, whatever the transport does.
-/

namespace AuthenticatedMpc

abbrev Setting.standard (me : Party) (config : Config) : Setting Schedule :=
  ⟨me, config, Schedule.controller config⟩

/-- What an evaluation carries from one batch or check to the next. -/
structure Books where
  /-- The records that no check has taken. -/
  records : List Record
  generator : Source
  /-- The number of checks so far. -/
  checks : UInt64
  board : Board
  /-- The gates to be released once there are no records. -/
  staged : List CircuitGate

def Custody.books (custody : Custody Schedule) (board : Board) (staged : List CircuitGate) : Books :=
  ⟨custody.ledger.records, custody.verifier.generator, custody.control.checksPerformed, board, staged⟩

def Evaluator.books (evaluator : Evaluator Schedule CircuitGate Board) : Books :=
  (custodyPart.get evaluator).books evaluator.board evaluator.staged

def Books.release (books : Books) : Books :=
  { books with
    board := books.staged.foldl (fun board gate => Gate.release gate board) books.board
    staged := [] }

/-- Events between batches and checks. -/
def Event.IsIdle : Option Event → Prop
  | none | some (.taken _) | some (.verified _) => True
  | _ => False

/-- An invariant of the gates so far, the moves and the books that each part of an evaluation keeps. -/
structure BooksInvariant (terms : Terms Board) (me : Party) (config : Config)
    (gates : List CircuitGate)
    (inv : List CircuitGate → List Move → Books → Prop) : Prop where
  during : ∀ {before now books}, inv before now books → terms.during now books.board
  abort : ∀ {past board}, terms.during past board → terms.during (past ++ [.inner none]) board
  idle : ∀ {before past books event}, Event.IsIdle event → inv before past books →
    inv before (past ++ [.inner event]) books
  check : ∀ {before past books} {verifier : Verifier}, inv before past books → books.records ≠ [] →
    verifier.generator = books.generator →
    verifier.check = MacCheck.start books.checks books.records me.modulus config →
    (Verifier.execute me).Meets
      (terms.contract (fun _ => books.board) fun _ now verifier' => inv before now
        { books with
          records := []
          generator := verifier'.generator
          checks := books.checks + 1 })
      (past ++ [.inner (some (.checking books.checks books.records))]) verifier
  batch : ∀ {before batch past books number} {desk : Desk Board}, inv before past books →
    before ++ batch <+: gates → desk.ledger.records = books.records → desk.board = books.board →
    desk.rounds = .start (.circuit number) me.parties →
    (Bench.process me).Meets
      (terms.contract (fun bench => bench.desk.board) fun _ now bench => inv (before ++ batch) now
        { books with
          records := bench.desk.ledger.records
          board := bench.desk.board
          staged := books.staged ++ (bench.slots.map Slot.gate).filter Gate.revealsOutput })
      past ⟨batch.map fun gate => ⟨gate, false⟩, desk⟩
  release : ∀ {before now books}, inv before now books → books.records = [] →
    inv before now books.release

namespace BooksInvariant

variable {terms : Terms Board} {me : Party} {config : Config} {gates before : List CircuitGate}
  {inv : List CircuitGate → List Move → Books → Prop} {past : List Move} {books : Books}
  {custody : Custody Schedule} {board : Board} {staged : List CircuitGate}

theorem quiet (h : BooksInvariant terms me config gates inv) (hinv : inv before past books) :
    inv before (past ++ [Move.inner none]) books :=
  h.idle trivial hinv

/-! ## Hooks -/

theorem hookInvariant (h : BooksInvariant terms me config gates inv) (before : List CircuitGate)
    (board : Board)
    (staged : List CircuitGate) :
    Schedule.HookInvariant (terms.seen fun _ => board) me config fun now custody =>
      inv before now (custody.books board staged) where
  during := h.during
  control _ _ hinv := h.quiet hinv
  check {past custody} hinv hne := by
    have hexecute : ((Verifier.execute me).zoom Custody.verifierPart).Meets
        (terms.contract (fun _ => board) fun _ now custody' =>
          inv before now (custody'.books board staged))
        (past ++
          [Move.inner (some (.checking custody.control.checksPerformed custody.ledger.records))])
        (Schedule.beginCheck me config custody) :=
      .zoom (h.check hinv hne rfl rfl)
    refine hexecute.bind_terms fun _ now custody' hnow => ?_
    have hend : inv before (now ++ [Move.inner (some (.verified custody.control.checksPerformed))])
        (custody'.books board staged) := h.idle trivial hnow
    exact ⟨h.during hnow, h.during hend, hend⟩

/-! ## Evaluations -/

variable {evaluator : Evaluator Schedule CircuitGate Board}

theorem releaseVerified (h : BooksInvariant terms me config gates inv)
    (hinv : inv before past evaluator.books) : inv before past evaluator.releaseVerified.books := by
  unfold Evaluator.releaseVerified
  split
  · next hempty => exact h.release hinv ((Ledger.isEmpty_iff _).mp hempty)
  · exact hinv

theorem meets_runBatch (h : BooksInvariant terms me config gates inv)
    (hinv : inv before past evaluator.books) {batch : List CircuitGate}
    (hbatch : before ++ batch <+: gates) :
    (Evaluator.runBatch (.standard me config) batch).Meets
      (terms.contract Evaluator.board fun _ now e => inv (before ++ batch) now e.books) past
      evaluator := by
  have h₁ : inv before (past ++ [Move.inner (some (.taken batch.length))])
      (Evaluator.books { evaluator with taken := evaluator.taken + batch.length }) :=
    h.idle trivial hinv
  have hbefore : ((Schedule.beforeBatch config me (batch.map Gate.revealsOutput)).zoom
      Evaluator.custodyPart).Meets (terms.contract Evaluator.board fun _ now e =>
        inv before now e.books) (past ++ [Move.inner (some (.taken batch.length))])
      { evaluator with taken := evaluator.taken + batch.length } :=
    .zoom (((h.hookInvariant _ _ _).meets_beforeBatch h₁ _).mono_terms fun _ _ _ => And.left)
  refine .record_bind (h.during hinv) (hbefore.bind_terms ?_)
  intro _ past₂ evaluator₂ h₂
  have hprocess : ((Bench.process me).zoom Evaluator.benchPart).Meets
      (terms.contract Evaluator.board fun _ now e => inv (before ++ batch) now
        ((Evaluator.custodyPart.get e).books e.board
          (e.staged ++ (e.slots.map Slot.gate).filter Gate.revealsOutput)))
      (past₂ ++ [Move.inner none]) (Evaluator.load (.standard me config) batch evaluator₂) :=
    .zoom (h.batch (h.quiet h₂) hbatch rfl rfl rfl)
  refine .modify_bind (h.during h₂) (hprocess.bind_terms ?_)
  intro _ past₃ evaluator₃ h₃
  have hafter : ((Schedule.afterBatch config me batch.length).zoom Evaluator.custodyPart).Meets
      (terms.contract Evaluator.board fun _ now e => inv (before ++ batch) now
        ((Evaluator.custodyPart.get e).books e.board
          (e.staged ++ (e.slots.map Slot.gate).filter Gate.revealsOutput)))
      past₃ evaluator₃ :=
    .zoom (((h.hookInvariant _ _ _).meets_afterBatch h₃ _).mono_terms fun _ _ _ => And.left)
  refine hafter.bind_terms fun _ past₄ evaluator₄ h₄ => ?_
  have h₅ : inv (before ++ batch) (past₄ ++ [Move.inner none]) evaluator₄.finishBatch.books := h.quiet h₄
  exact ⟨h.during h₄, h.during (h.releaseVerified h₅), h.releaseVerified h₅⟩

theorem meets_runBatches (h : BooksInvariant terms me config gates inv)
    (hinv : inv before past evaluator.books) {batches : List (List CircuitGate)}
    (hbatches : before ++ batches.flatten <+: gates) :
    (Evaluator.runBatches (.standard me config) batches).Meets
      (terms.contract Evaluator.board fun _ now e => ∃ before, inv before now e.books) past
      evaluator := by
  induction batches generalizing before past evaluator with
  | nil => exact ⟨h.during hinv, before, hinv⟩
  | cons batch batches ih =>
    rw [List.flatten_cons, ← List.append_assoc] at hbatches
    exact (h.meets_runBatch hinv ((List.prefix_append ..).trans hbatches)).bind_terms
      fun _ _ _ h₂ => ih h₂ hbatches

theorem meets_runStream (h : BooksInvariant terms me config gates inv)
    (hstaged : evaluator.staged = [])
    (hinv : inv [] past evaluator.books) :
    (Evaluator.runStream (.standard me config) gates).Meets
      (terms.contract Evaluator.board fun _ now e => ∃ before, inv before now e.books) past
      evaluator := by
  have h₁ : inv [] (past ++ [Move.inner none]) evaluator.begin.books := by
    have hbegin : evaluator.begin.books = evaluator.books := by
      simp only [Evaluator.books, Evaluator.begin, hstaged]
      rfl
    rw [hbegin]
    exact h.quiet hinv
  refine .modify_bind (h.during hinv) ((h.meets_runBatches h₁
    (isPrefix_flatten_batchesWithin ..)).bind_terms ?_)
  rintro _ past₂ evaluator₂ ⟨before, h₂⟩
  have hafter : ((Schedule.verifyLedger config me).zoom Evaluator.custodyPart).Meets
      (terms.contract Evaluator.board fun _ now e => inv before now e.books) past₂ evaluator₂ :=
    .zoom (((h.hookInvariant _ _ _).meets_verifyLedger h₂).mono_terms fun _ _ _ => And.left)
  refine hafter.bind_terms fun _ past₃ evaluator₃ h₃ => ?_
  have h₄ := h.releaseVerified (h.quiet h₃)
  exact .modify_bind (h.during h₃) (.get_bind (h.during h₄)
    ⟨h.during (h.quiet h₄), before, h.quiet h₄⟩)

/-- An invariant of every part of an evaluation holds at its end. -/
theorem meets_evaluate (h : BooksInvariant terms me config gates inv)
    (haborted : evaluator.aborted = none)
    (hstaged : evaluator.staged = []) (hinv : inv [] past evaluator.books) :
    (Evaluator.evaluate (.standard me config) gates).Meets
      (terms.contract Evaluator.board fun _ now e => ∃ before, inv before now e.books) past
      evaluator := by
  refine .get_bind (h.during hinv) ?_
  rw [haborted]
  have hstream := h.meets_runStream hstaged (h.quiet hinv)
  refine .attempt_bind (hstream.mono (fun _ _ => id) ?_ ?_)
  · rintro summary past₂ evaluator₂ - ⟨before, h₂⟩
    exact ⟨h.during h₂, before, h₂⟩
  · intro error past₂ evaluator₂ hduring hfails
    exact ⟨hduring, h.abort hduring, hfails⟩

end BooksInvariant
end AuthenticatedMpc
