import AuthenticatedMpc.Proofs.Runs.Parts

/-!
# The first fault of a run

A judge says of every move of a party whether something is wrong with it, and what. A program heeds
a judge if it fails for the faults that the judge finds and for nothing else: after the first of
them it makes silent moves only and fails with exactly that error.
-/

namespace AuthenticatedMpc

variable {σ τ α β : Type}

/-- A gate in evaluation: the phase of its batch, its place there, and the round. -/
structure Visit where
  phase : Phase
  place : Nat
  round : Nat
deriving DecidableEq, Repr

def Move.visited (visit : Option Visit) : Move → Option Visit
  | .inner (some (.evaluating phase place round)) => some ⟨phase, place, round⟩
  | _ => visit

def Move.failure? : Move → Option Error
  | .sent _ _ (.error cause) | .received _ (.error cause) => some (.network cause)
  | _ => none

structure Judge (σ : Type) where
  /-- What is wrong with a move, given the gate in evaluation and the states before and after. -/
  fault? : Option Visit → σ → Move → σ → Option Error
  /-- What a party that gives up may still change. -/
  still : σ → σ → Prop

/-- A judge of the whole state as one of a part of it. -/
def Judge.onPart (judge : Judge σ) (part : Lens σ τ) (s : σ) : Judge τ where
  fault? visit t move t' := judge.fault? visit (part.set s t) move (part.set s t')
  still t t' := judge.still (part.set s t) (part.set s t')

namespace Program

/-- The program makes silent moves only, under the invariant, and ends as promised. -/
def Quietly (inv : σ → Prop) (post : Except Error α → σ → Prop) : Program σ α → σ → Prop
  | pure value, s => inv s ∧ post (.ok value) s
  | fail error, s => inv s ∧ post (.error error) s
  | step none update next, s => inv s ∧ Quietly inv post (next s) (update s)
  | _, _ => False

/-- The program makes silent moves only, under the invariant, and fails with the error. -/
abbrev GivesUp (inv : σ → Prop) (error : Error) : Program σ α → σ → Prop :=
  Quietly inv fun outcome _ => outcome = .error error

namespace Quietly

variable {inv inv' : σ → Prop} {ready post' : Except Error α → σ → Prop}
  {post : Except Error β → σ → Prop} {error : Error} {p : Program σ α} {k : α → Program σ β} {s : σ}

theorem mono (h : p.Quietly inv ready s) (hinv : ∀ s, inv s → inv' s)
    (hpost : ∀ outcome s, ready outcome s → post' outcome s) : p.Quietly inv' post' s := by
  induction p generalizing s with
  | pure | fail => exact h.imp (hinv _) (hpost _ _)
  | step event _ _ ih =>
    cases event with
    | none => exact h.imp (hinv _) (ih _)
    | some => exact h.elim
  | never | send | receive | close => exact h.elim

theorem bind (h : p.Quietly inv ready s)
    (hnext : ∀ value s, inv s → ready (.ok value) s → (k value).Quietly inv post s)
    (hfail : ∀ error s, ready (.error error) s → post (.error error) s) :
    (p >>= k).Quietly inv post s := by
  induction p generalizing s with
  | pure => exact hnext _ _ h.1 h.2
  | fail => exact h.imp_right (hfail _ _)
  | step event _ _ ih =>
    cases event with
    | none => exact h.imp_right (ih _)
    | some => exact h.elim
  | never | send | receive | close => exact h.elim

theorem get_bind {k : σ → Program σ β} (hs : inv s) (hnext : (k s).Quietly inv post s) :
    (get >>= k).Quietly inv post s :=
  ⟨hs, hnext⟩

theorem modify_bind {update : σ → σ} {k : Unit → Program σ β} (hs : inv s)
    (hnext : (k ()).Quietly inv post (update s)) : (modify update >>= k).Quietly inv post s :=
  ⟨hs, hnext⟩

theorem zoom {part : Lens σ τ} {p : Program τ α}
    (h : p.Quietly (fun t => inv (part.set s t)) (fun outcome t => ready outcome (part.set s t))
      (part.get s)) : (p.zoom part).Quietly inv ready s := by
  suffices hset : ∀ t,
      p.Quietly (fun t => inv (part.set s t)) (fun outcome t => ready outcome (part.set s t)) t →
        (p.zoom part).Quietly inv ready (part.set s t) by
    have hs := hset (part.get s) h
    rwa [part.set_get] at hs
  clear h
  intro t h
  induction p generalizing t with
  | pure | fail => exact h
  | step event update next ih =>
    cases event with
    | none =>
      refine ⟨h.1, ?_⟩
      simp only [part.get_set, part.set_set]
      exact ih _ _ h.2
    | some => exact h.elim
  | never | send | receive | close => exact h.elim

theorem attempt_bind {k : Except Error α → Program σ β} (h : p.Quietly inv ready s)
    (hnext : ∀ outcome s, inv s → ready outcome s → (k outcome).Quietly inv post s) :
    (p.attempt >>= k).Quietly inv post s := by
  induction p generalizing s with
  | pure | fail => exact hnext _ _ h.1 h.2
  | step event _ _ ih =>
    cases event with
    | none => exact h.imp_right (ih _)
    | some => exact h.elim
  | never | send | receive | close => exact h.elim

theorem path {a b : Actor σ α} {moves : List Move} (h : a.program.Quietly inv ready a.state)
    (hpath : Path a moves b) : Silent moves ∧ b.program.Quietly inv ready b.state := by
  induction hpath with
  | refl => exact ⟨.nil, h⟩
  | head first _ ih =>
    cases first with
    | inner event =>
      cases event with
      | none => exact (ih h.2).imp_left Silent.cons
      | some => exact h.elim
    | send | receive | close => exact h.elim

theorem during (h : p.Quietly inv ready s) : inv s := by
  cases p with
  | pure | fail => exact h.1
  | step event =>
    cases event with
    | none => exact h.1
    | some => exact h.elim
  | never | send | receive | close => exact h.elim

theorem ended {a : Actor σ α} {moves : List Move} {outcome : Except Error α} {final : σ}
    (h : a.program.Quietly inv ready a.state) (hpath : Path a moves ⟨.ofExcept outcome, final⟩) :
    Silent moves ∧ inv final ∧ ready outcome final := by
  refine (h.path hpath).imp_right fun hend => ?_
  cases outcome <;> exact hend

theorem exists_path (h : p.Quietly inv ready s) :
    ∃ moves outcome final, Path ⟨p, s⟩ moves ⟨.ofExcept outcome, final⟩ ∧ ready outcome final := by
  induction p generalizing s with
  | pure value => exact ⟨[], .ok value, s, .refl _, h.2⟩
  | fail error => exact ⟨[], .error error, s, .refl _, h.2⟩
  | step event _ _ ih =>
    cases event with
    | none =>
      obtain ⟨moves, outcome, final, hpath, hready⟩ := ih _ h.2
      exact ⟨_, outcome, final, .head (.inner ..) hpath, hready⟩
    | some => exact h.elim
  | never | send | receive | close => exact h.elim

end Quietly

theorem GivesUp.bind {inv : σ → Prop} {error : Error} {p : Program σ α} {k : α → Program σ β}
    {s : σ} (h : p.GivesUp inv error s) : (p >>= k).GivesUp inv error s :=
  Quietly.bind h (fun _ _ _ => nofun) fun | _, _, rfl => rfl

end Program

/-- After the move the party gives up if there is a fault, and goes on if there is none. -/
structure Judge.Settles (judge : Judge σ) (visit : Option Visit) (s : σ) (move : Move)
    (next : Actor σ α) (goesOn : Prop) : Prop where
  givesUp : ∀ {error}, judge.fault? visit s move next.state = some error →
    next.program.GivesUp (judge.still next.state) error next.state
  goesOn : judge.fault? visit s move next.state = none → goesOn

namespace Judge.Settles

variable {judge : Judge σ} {visit : Option Visit} {move : Move} {P Q : Prop}

theorem of_none {s : σ} {next : Actor σ α} (hfault : judge.fault? visit s move next.state = none)
    (h : P) : judge.Settles visit s move next P where
  givesUp := by simp [hfault]
  goesOn _ := h

theorem of_some {s : σ} {next : Actor σ α} {error : Error}
    (hfault : judge.fault? visit s move next.state = some error)
    (h : next.program.GivesUp (judge.still next.state) error next.state) :
    judge.Settles visit s move next P where
  givesUp hsome := by
    rw [hfault] at hsome
    cases hsome
    exact h
  goesOn := by simp [hfault]

theorem imp {s s' : σ} {p : Program σ α} {q : Program σ β}
    (h : judge.Settles visit s move ⟨p, s'⟩ P)
    (hgivesUp : ∀ {error}, p.GivesUp (judge.still s') error s' →
      q.GivesUp (judge.still s') error s') (hgoesOn : P → Q) :
    judge.Settles visit s move ⟨q, s'⟩ Q where
  givesUp hfault := hgivesUp (h.givesUp hfault)
  goesOn hfault := hgoesOn (h.goesOn hfault)

theorem zoom {part : Lens σ τ} {s : σ} {t t' : τ} {p : Program τ α}
    (h : (judge.onPart part s).Settles visit t move ⟨p, t'⟩ P) (hgoesOn : P → Q) :
    judge.Settles visit (part.set s t) move ⟨p.zoom part, part.set s t'⟩ Q where
  givesUp hfault := by
    have hp := h.givesUp hfault
    refine Program.Quietly.zoom ?_
    simp only [part.get_set, part.set_set]
    exact hp
  goesOn hfault := hgoesOn (h.goesOn hfault)

end Judge.Settles

namespace Program

/-- After each move the program settles it; it returns only as promised, and does not fail before a
fault. -/
def Heeds (judge : Judge σ) (post : α → Option Visit → σ → Prop) :
    Program σ α → Option Visit → σ → Prop
  | pure value, visit, s => post value visit s
  | fail _, _, _ => False
  | never, _, _ => True
  | step event update next, visit, s =>
    judge.Settles ((Move.inner event).visited visit) s (.inner event) ⟨next s, update s⟩
      (Heeds judge post (next s) ((Move.inner event).visited visit) (update s))
  | send peer packet next, visit, s => ∀ reply,
    judge.Settles visit s (.sent peer packet reply) ⟨next reply, s⟩
      (Heeds judge post (next reply) visit s)
  | receive peer next, visit, s => ∀ reply,
    judge.Settles visit s (.received peer reply) ⟨next reply, s⟩
      (Heeds judge post (next reply) visit s)
  | close next, visit, s =>
    judge.Settles visit s .closed ⟨next, s⟩ (Heeds judge post next visit s)

namespace Heeds

variable {judge : Judge σ} {ready post' : α → Option Visit → σ → Prop}
  {post : β → Option Visit → σ → Prop} {p : Program σ α} {visit : Option Visit} {s : σ}

theorem mono (h : p.Heeds judge ready visit s)
    (hpost : ∀ value visit s, ready value visit s → post' value visit s) :
    p.Heeds judge post' visit s := by
  induction p generalizing visit s with
  | pure => exact hpost _ _ _ h
  | fail | never => exact h
  | step _ _ _ ih => exact h.imp id (ih _)
  | send _ _ _ ih | receive _ _ ih => exact fun reply => (h reply).imp id (ih _)
  | close _ ih => exact h.imp id ih

theorem and_path (h : p.Heeds judge ready visit s) :
    p.Heeds judge (fun value now s' => ready value now s' ∧
      ∃ moves, Path ⟨p, s⟩ moves ⟨.pure value, s'⟩) visit s := by
  induction p generalizing visit s with
  | pure => exact ⟨h, [], .refl _⟩
  | fail | never => exact h
  | step _ _ _ ih =>
    exact h.imp id fun hnext => (ih _ hnext).mono fun _ _ _ ⟨hready, moves, hpath⟩ =>
      ⟨hready, _, .head (.inner ..) hpath⟩
  | send _ _ _ ih =>
    exact fun reply => (h reply).imp id fun hnext =>
      (ih reply hnext).mono fun _ _ _ ⟨hready, moves, hpath⟩ => ⟨hready, _, .head (.send ..) hpath⟩
  | receive _ _ ih =>
    exact fun reply => (h reply).imp id fun hnext =>
      (ih reply hnext).mono fun _ _ _ ⟨hready, moves, hpath⟩ =>
        ⟨hready, _, .head (.receive ..) hpath⟩
  | close _ ih =>
    exact h.imp id fun hnext => (ih hnext).mono fun _ _ _ ⟨hready, moves, hpath⟩ =>
      ⟨hready, _, .head (.close ..) hpath⟩

theorem bind {k : α → Program σ β} (h : p.Heeds judge ready visit s)
    (hnext : ∀ value visit s, ready value visit s → (k value).Heeds judge post visit s) :
    (p >>= k).Heeds judge post visit s := by
  induction p generalizing visit s with
  | pure => exact hnext _ _ _ h
  | fail => exact h.elim
  | never => exact h
  | step _ _ _ ih => exact h.imp GivesUp.bind (ih _)
  | send _ _ _ ih | receive _ _ ih => exact fun reply => (h reply).imp GivesUp.bind (ih _)
  | close _ ih => exact h.imp GivesUp.bind ih

theorem zoom {part : Lens σ τ} {p : Program τ α}
    (h : p.Heeds (judge.onPart part s) (fun value visit t => post' value visit (part.set s t)) visit
      (part.get s)) : (p.zoom part).Heeds judge post' visit s := by
  suffices hset : ∀ visit t, p.Heeds (judge.onPart part s)
      (fun value visit t => post' value visit (part.set s t)) visit t →
        (p.zoom part).Heeds judge post' visit (part.set s t) by
    have hs := hset visit (part.get s) h
    rwa [part.set_get] at hs
  clear h
  intro visit t h
  induction p generalizing visit t with
  | pure | fail | never => exact h
  | step event update next ih =>
    have hrest := Judge.Settles.zoom h (ih _ _ _)
    simp only [Program.zoom, Heeds, part.get_set, part.set_set]
    exact hrest
  | send _ _ _ ih | receive _ _ ih => exact fun reply => (h reply).zoom (ih _ _ _)
  | close _ ih => exact Judge.Settles.zoom h (ih _ _)

theorem attempt_bind {k : Except Error α → Program σ β} (h : p.Heeds judge ready visit s)
    (hnext : ∀ value visit s, ready value visit s → (k (.ok value)).Heeds judge post visit s)
    (hcaught : ∀ {error} {s s' : σ}, judge.still s s' →
      (k (.error error)).GivesUp (judge.still s) error s') :
    (p.attempt >>= k).Heeds judge post visit s := by
  have hattempt : ∀ {p : Program σ α} {error} {s : σ}, p.GivesUp (judge.still s) error s →
      (p.attempt >>= k).GivesUp (judge.still s) error s := by
    intro p error s hgivesUp
    refine Quietly.attempt_bind hgivesUp ?_
    rintro _ s' hs' rfl
    exact hcaught hs'
  induction p generalizing visit s with
  | pure => exact hnext _ _ _ h
  | fail => exact h.elim
  | never => exact h
  | step _ _ _ ih => exact h.imp hattempt (ih _)
  | send _ _ _ ih | receive _ _ ih =>
    exact fun reply => (h reply).imp hattempt (ih _)
  | close _ ih => exact h.imp hattempt ih

theorem get_bind {k : σ → Program σ β} (hfault : judge.fault? visit s (.inner none) s = none)
    (hnext : (k s).Heeds judge post visit s) : (get >>= k).Heeds judge post visit s :=
  .of_none hfault hnext

theorem modify_bind {update : σ → σ} {k : Unit → Program σ β}
    (hfault : judge.fault? visit s (.inner none) (update s) = none)
    (hnext : (k ()).Heeds judge post visit (update s)) :
    (modify update >>= k).Heeds judge post visit s :=
  .of_none hfault hnext

theorem record_bind {event : Event} {update : σ → σ} {k : Unit → Program σ β}
    (h : judge.Settles ((Move.inner (some event)).visited visit) s (.inner (some event))
      ⟨k (), update s⟩
      ((k ()).Heeds judge post ((Move.inner (some event)).visited visit) (update s))) :
    (record event update >>= k).Heeds judge post visit s :=
  h

theorem mark_bind {event : Event} {k : Unit → Program σ β}
    (h : judge.Settles ((Move.inner (some event)).visited visit) s (.inner (some event)) ⟨k (), s⟩
      ((k ()).Heeds judge post ((Move.inner (some event)).visited visit) s)) :
    (mark event >>= k).Heeds judge post visit s :=
  h

theorem transmit_bind {peer : PartyId} {packet : Packet} {k : Unit → Program σ β}
    (hsent : ∀ reply, judge.fault? visit s (.sent peer packet reply) s =
      (Move.sent peer packet reply).failure?) (hstill : judge.still s s)
    (hnext : (k ()).Heeds judge post visit s) :
    (transmit peer packet >>= k).Heeds judge post visit s
  | .ok () => .of_none (hsent _) hnext
  | .error _ => .of_some (hsent _) ⟨hstill, rfl⟩

theorem await_bind {peer : PartyId} {k : Packet → Program σ β}
    (hrefused : ∀ cause, judge.fault? visit s (.received peer (.error cause)) s =
      some (.network cause)) (hstill : judge.still s s)
    (hpacket : ∀ packet, judge.Settles visit s (.received peer (.ok packet)) ⟨k packet, s⟩
      ((k packet).Heeds judge post visit s)) : (await peer >>= k).Heeds judge post visit s
  | .ok packet => hpacket packet
  | .error cause => .of_some (hrefused cause) ⟨hstill, rfl⟩

/-- A program that makes silent moves only, none of which is a fault, and does not fail. -/
theorem of_quietly {inv : σ → Prop}
    (h : p.Quietly inv (fun outcome s => ∃ value, outcome = .ok value ∧ ready value visit s) s)
    (hfault : ∀ s s', inv s → inv s' → judge.fault? visit s (.inner none) s' = none) :
    p.Heeds judge ready visit s := by
  induction p generalizing s with
  | pure =>
    obtain ⟨-, _, ⟨⟩, hready⟩ := h
    exact hready
  | fail =>
    obtain ⟨-, _, ⟨⟩, -⟩ := h
  | step event _ _ ih =>
    cases event with
    | none => exact .of_none (hfault _ _ h.1 h.2.during) (ih _ h.2)
    | some => exact h.elim
  | never | send | receive | close => exact h.elim

theorem step {a b : Actor σ α} {move : Move} (h : a.program.Heeds judge ready visit a.state)
    (hstep : Step a move b) : judge.Settles (move.visited visit) a.state move b
      (b.program.Heeds judge ready (move.visited visit) b.state) := by
  cases hstep with
  | inner | close => exact h
  | send _ _ _ _ reply | receive _ _ _ reply => exact h reply

end Heeds
end Program

/-- A run that comes to its first fault with its last move. -/
inductive Judge.FirstFault (judge : Judge σ) (error : Error) :
    Option Visit → Actor σ α → List Move → Actor σ α → Prop
  | now {visit : Option Visit} {a b : Actor σ α} {move : Move} (last : Step a move b)
      (fault : judge.fault? (move.visited visit) a.state move b.state = some error) :
      FirstFault judge error visit a [move] b
  | later {visit : Option Visit} {a b c : Actor σ α} {move : Move} {moves : List Move}
      (first : Step a move b)
      (fine : judge.fault? (move.visited visit) a.state move b.state = none)
      (rest : FirstFault judge error (move.visited visit) b moves c) :
      FirstFault judge error visit a (move :: moves) c

namespace Program.Heeds

variable {judge : Judge σ} {post : α → Option Visit → σ → Prop} {visit : Option Visit}
  {a b : Actor σ α} {moves : List Move} {error : Error}

theorem givesUp (h : a.program.Heeds judge post visit a.state)
    (hfault : judge.FirstFault error visit a moves b) :
    b.program.GivesUp (judge.still b.state) error b.state := by
  induction hfault with
  | now last fault => exact (h.step last).givesUp fault
  | later first fine _ ih => exact ih ((h.step first).goesOn fine)

/-- A program that fails has come to the fault first. -/
theorem exists_firstFault {final : σ} (h : a.program.Heeds judge post visit a.state)
    (hpath : Path a moves ⟨.fail error, final⟩) :
    ∃ front back c,
      moves = front ++ back ∧ judge.FirstFault error visit a front c ∧ Silent back := by
  generalize hend : (⟨.fail error, final⟩ : Actor σ α) = d at hpath
  induction hpath generalizing visit with
  | refl =>
    subst hend
    exact h.elim
  | @head a b d move moves first rest ih =>
    subst hend
    have hsettles := h.step first
    cases hfault : judge.fault? (move.visited visit) a.state move b.state with
    | none =>
      obtain ⟨front, back, c, rfl, hfirst, hsilent⟩ := ih (hsettles.goesOn hfault) rfl
      exact ⟨move :: front, back, c, rfl, .later first hfault hfirst, hsilent⟩
    | some cause =>
      obtain ⟨hsilent, hfailed⟩ := (hsettles.givesUp hfault).path rest
      cases hfailed.2
      exact ⟨[move], moves, b, rfl, .now first hfault, hsilent⟩

end Program.Heeds
end AuthenticatedMpc
