import AuthenticatedMpc.Proofs.Runs.Path

/-!
# Contracts

A contract says what holds at every moment of a program, when it returns and when it fails, of the
moves so far and of the state. A program meets its contract whatever the transport replies, as long
as what it receives is as the contract assumes.
-/

namespace AuthenticatedMpc

variable {σ τ α β : Type}

/-- What a program promises, given the moves that the party has made. -/
structure Contract (σ α : Type) where
  during : List Move → σ → Prop
  returns : α → List Move → σ → Prop
  fails : Error → List Move → σ → Prop
  /-- What may be assumed of the moves after a receive. -/
  assumes : List Move → Prop := fun _ => True

namespace Contract

def ofState (inv : σ → Prop) (post : α → σ → Prop) : Contract σ α where
  during _ := inv
  returns value _ := post value
  fails _ _ := inv

/-- The contract of a first part, after which the second can start. -/
def before (c : Contract σ β) (ready : α → List Move → σ → Prop) : Contract σ α where
  during := c.during
  returns := ready
  fails := c.fails
  assumes := c.assumes

def onPart (part : Lens σ τ) (s : σ) (c : Contract σ α) : Contract τ α where
  during past t := c.during past (part.set s t)
  returns value past t := c.returns value past (part.set s t)
  fails error past t := c.fails error past (part.set s t)
  assumes := c.assumes

end Contract

/-- What holds of the moves and of one part of the state at every moment, which errors there can be,
and what may be assumed. -/
structure Terms (ω : Type) where
  during : List Move → ω → Prop
  fails : Error → Prop
  assumes : List Move → Prop

/-- The contract on these terms of a program whose state shows the part. -/
def Terms.contract {ω : Type} (terms : Terms ω) (view : σ → ω) (ready : α → List Move → σ → Prop) :
    Contract σ α where
  during now s := terms.during now (view s)
  returns := ready
  fails error _ _ := terms.fails error
  assumes := terms.assumes

/-- Terms that ask for an invariant of the states, and for nothing else. -/
def Terms.always {ω : Type} (inv : ω → Prop) : Terms ω where
  during _ := inv
  fails _ := True
  assumes _ := True

namespace Program

/-- After the given moves, the program meets the contract from the state on. -/
def Meets (c : Contract σ α) : Program σ α → List Move → σ → Prop
  | pure value, past, s => c.during past s ∧ c.returns value past s
  | fail error, past, s => c.during past s ∧ c.fails error past s
  | never, past, s => c.during past s
  | step event update next, past, s =>
    c.during past s ∧ Meets c (next s) (past ++ [.inner event]) (update s)
  | send peer packet next, past, s =>
    c.during past s ∧ ∀ reply, Meets c (next reply) (past ++ [.sent peer packet reply]) s
  | receive peer next, past, s =>
    c.during past s ∧ ∀ reply, c.assumes (past ++ [.received peer reply]) →
      Meets c (next reply) (past ++ [.received peer reply]) s
  | close next, past, s => c.during past s ∧ Meets c next (past ++ [.closed]) s

namespace Meets

theorem during {c : Contract σ α} {p : Program σ α} {past : List Move} {s : σ}
    (h : p.Meets c past s) : c.during past s := by
  cases p with
  | never => exact h
  | pure _ | fail _ | step _ _ _ | send _ _ _ | receive _ _ | close _ => exact h.1

theorem step {c : Contract σ α} {a b : Actor σ α} {past : List Move} {move : Move}
    (h : a.program.Meets c past a.state) (hstep : Step a move b)
    (hassumes : c.assumes (past ++ [move])) : b.program.Meets c (past ++ [move]) b.state := by
  cases hstep with
  | inner | close => exact h.2
  | send _ _ _ _ reply => exact h.2 reply
  | receive _ _ _ reply => exact h.2 reply hassumes

/-- A contract that is met holds along every path on which it assumes nothing wrong. -/
theorem path {c : Contract σ α} {a b : Actor σ α} {past moves : List Move}
    (h : a.program.Meets c past a.state) (hpath : Path a moves b)
    (hassumes : ∀ front, front <+: moves → c.assumes (past ++ front)) :
    b.program.Meets c (past ++ moves) b.state := by
  induction hpath generalizing past with
  | refl => rwa [List.append_nil]
  | @head _ _ _ move moves first _ ih =>
    rw [← List.singleton_append, ← List.append_assoc]
    refine ih (h.step first (hassumes [move] (List.prefix_append ..))) fun front hfront => ?_
    rw [List.append_assoc]
    exact hassumes _ ((List.prefix_append_right_inj [move]).mpr hfront)

theorem mono {c d : Contract σ α} {p : Program σ α} {past : List Move} {s : σ}
    (h : p.Meets c past s) (hduring : ∀ past s, c.during past s → d.during past s)
    (hreturns : ∀ value past s, c.during past s → c.returns value past s → d.returns value past s)
    (hfails : ∀ error past s, c.during past s → c.fails error past s → d.fails error past s)
    (hassumes : ∀ past, d.assumes past → c.assumes past := by exact fun _ => id) :
    p.Meets d past s := by
  induction p generalizing past s with
  | pure value => exact ⟨hduring _ _ h.1, hreturns _ _ _ h.1 h.2⟩
  | fail error => exact ⟨hduring _ _ h.1, hfails _ _ _ h.1 h.2⟩
  | never => exact hduring _ _ h
  | step event update next ih => exact ⟨hduring _ _ h.1, ih _ h.2⟩
  | send peer packet next ih => exact ⟨hduring _ _ h.1, fun reply => ih reply (h.2 reply)⟩
  | receive peer next ih =>
    exact ⟨hduring _ _ h.1, fun reply hreply => ih reply (h.2 reply (hassumes _ hreply))⟩
  | close next ih => exact ⟨hduring _ _ h.1, ih h.2⟩

theorem bind {c : Contract σ β} {ready : α → List Move → σ → Prop} {p : Program σ α}
    {k : α → Program σ β} {past : List Move} {s : σ} (h : p.Meets (c.before ready) past s)
    (hnext : ∀ value past s, ready value past s → (k value).Meets c past s) :
    (p >>= k).Meets c past s := by
  induction p generalizing past s with
  | pure value => exact hnext _ _ _ h.2
  | fail _ | never => exact h
  | step event update next ih => exact ⟨h.1, ih _ h.2⟩
  | send peer packet next ih => exact ⟨h.1, fun reply => ih reply (h.2 reply)⟩
  | receive peer next ih => exact ⟨h.1, fun reply hreply => ih reply (h.2 reply hreply)⟩
  | close next ih => exact ⟨h.1, ih h.2⟩

theorem zoom {part : Lens σ τ} {c : Contract σ α} {p : Program τ α} {past : List Move} {s : σ}
    (h : p.Meets (c.onPart part s) past (part.get s)) : (p.zoom part).Meets c past s := by
  suffices hset : ∀ past t, p.Meets (c.onPart part s) past t →
      (p.zoom part).Meets c past (part.set s t) by
    have hs := hset past (part.get s) h
    rwa [part.set_get] at hs
  clear h
  intro past t h
  induction p generalizing past t with
  | pure _ | fail _ | never => exact h
  | step event update next ih =>
    refine ⟨h.1, ?_⟩
    simp only [part.get_set, part.set_set]
    exact ih _ _ _ h.2
  | send peer packet next ih => exact ⟨h.1, fun reply => ih reply _ _ (h.2 reply)⟩
  | receive peer next ih => exact ⟨h.1, fun reply hreply => ih reply _ _ (h.2 reply hreply)⟩
  | close next ih => exact ⟨h.1, ih _ _ h.2⟩

theorem attempt {c : Contract σ (Except Error α)} {p : Program σ α} {past : List Move} {s : σ}
    (h : p.Meets
      { during := c.during
        returns := fun value => c.returns (.ok value)
        fails := fun error => c.returns (.error error)
        assumes := c.assumes } past s) : p.attempt.Meets c past s := by
  induction p generalizing past s with
  | pure _ | fail _ | never => exact h
  | step event update next ih => exact ⟨h.1, ih _ h.2⟩
  | send peer packet next ih => exact ⟨h.1, fun reply => ih reply (h.2 reply)⟩
  | receive peer next ih => exact ⟨h.1, fun reply hreply => ih reply (h.2 reply hreply)⟩
  | close next ih => exact ⟨h.1, ih h.2⟩

/-- A program whose failures are caught, with what comes after it. -/
theorem attempt_bind {c : Contract σ β} {p : Program σ α} {k : Except Error α → Program σ β}
    {past : List Move} {s : σ}
    (h : p.Meets
      { during := c.during
        returns := fun value past s => (k (.ok value)).Meets c past s
        fails := fun error past s => (k (.error error)).Meets c past s
        assumes := c.assumes } past s) : (p.attempt >>= k).Meets c past s := by
  have hattempt : p.attempt.Meets (c.before fun outcome past s => (k outcome).Meets c past s) past s :=
    attempt h
  exact hattempt.bind fun _ _ _ => id

theorem and {c d : Contract σ α} {p : Program σ α} {past : List Move} {s : σ}
    (h : p.Meets c past s) (h' : p.Meets d past s) :
    p.Meets
      { during := fun now s => c.during now s ∧ d.during now s
        returns := fun value now s => c.returns value now s ∧ d.returns value now s
        fails := fun error now s => c.fails error now s ∧ d.fails error now s
        assumes := fun now => c.assumes now ∧ d.assumes now } past s := by
  induction p generalizing past s with
  | pure _ | fail _ => exact ⟨⟨h.1, h'.1⟩, h.2, h'.2⟩
  | never => exact ⟨h, h'⟩
  | step _ _ _ ih => exact ⟨⟨h.1, h'.1⟩, ih _ h.2 h'.2⟩
  | send _ _ _ ih => exact ⟨⟨h.1, h'.1⟩, fun reply => ih reply (h.2 reply) (h'.2 reply)⟩
  | receive _ _ ih =>
    exact ⟨⟨h.1, h'.1⟩, fun reply hreply => ih reply (h.2 reply hreply.1) (h'.2 reply hreply.2)⟩
  | close _ ih => exact ⟨⟨h.1, h'.1⟩, ih h.2 h'.2⟩

def possible (p : Program σ α) (past : List Move) (s : σ) : Contract σ α where
  during now s' := ∃ moves q, now = past ++ moves ∧ Path ⟨p, s⟩ moves ⟨q, s'⟩
  returns value now s' := ∃ moves, now = past ++ moves ∧ Path ⟨p, s⟩ moves ⟨.pure value, s'⟩
  fails error now s' := ∃ moves, now = past ++ moves ∧ Path ⟨p, s⟩ moves ⟨.fail error, s'⟩

theorem of_paths (p : Program σ α) (past : List Move) (s : σ) :
    p.Meets (possible p past s) past s := by
  -- From any point of a path on, the rest of the program extends it.
  suffices hrest : ∀ (q : Program σ α) (moves : List Move) (t : σ), Path ⟨p, s⟩ moves ⟨q, t⟩ →
      q.Meets (possible p past s) (past ++ moves) t by
    have h := hrest p [] s (.refl _)
    rwa [List.append_nil] at h
  intro q
  induction q with
  | pure _ | fail _ => exact fun moves t h => ⟨⟨moves, _, rfl, h⟩, moves, rfl, h⟩
  | never => exact fun moves t h => ⟨moves, _, rfl, h⟩
  | step event update next ih =>
    intro moves t h
    refine ⟨⟨moves, _, rfl, h⟩, ?_⟩
    rw [List.append_assoc]
    exact ih _ _ _ (h.trans (.head (.inner ..) (.refl _)))
  | send peer packet next ih =>
    intro moves t h
    refine ⟨⟨moves, _, rfl, h⟩, fun reply => ?_⟩
    rw [List.append_assoc]
    exact ih reply _ _ (h.trans (.head (.send ..) (.refl _)))
  | receive peer next ih =>
    intro moves t h
    refine ⟨⟨moves, _, rfl, h⟩, fun reply _ => ?_⟩
    rw [List.append_assoc]
    exact ih reply _ _ (h.trans (.head (.receive ..) (.refl _)))
  | close next ih =>
    intro moves t h
    refine ⟨⟨moves, _, rfl, h⟩, ?_⟩
    rw [List.append_assoc]
    exact ih _ _ (h.trans (.head (.close ..) (.refl _)))

/-- What holds of the states holds after the moves so far. -/
theorem since {inv : σ → Prop} {post : α → σ → Prop} {p : Program σ α} {past : List Move} {s : σ}
    (h : p.Meets (.ofState inv post) past s) :
    p.Meets
      { during := fun now s => past <+: now ∧ inv s
        returns := fun value now s => past <+: now ∧ post value s
        fails := fun _ now s => past <+: now ∧ inv s } past s := by
  refine ((of_paths p past s).and h).mono ?_ ?_ ?_ fun _ _ => ⟨trivial, trivial⟩
  · rintro _ s ⟨⟨moves, _, rfl, -⟩, hinv⟩
    exact ⟨List.prefix_append .., hinv⟩
  · rintro value _ s - ⟨⟨moves, rfl, -⟩, hpost⟩
    exact ⟨List.prefix_append .., hpost⟩
  · rintro error _ s - ⟨⟨moves, rfl, -⟩, hinv⟩
    exact ⟨List.prefix_append .., hinv⟩

theorem bind_state {inv : σ → Prop} {middle : α → σ → Prop} {post : β → σ → Prop}
    {p : Program σ α} {k : α → Program σ β} {past : List Move} {s : σ}
    (h : p.Meets (.ofState inv middle) past s)
    (hnext : ∀ value past s, middle value s → (k value).Meets (.ofState inv post) past s) :
    (p >>= k).Meets (.ofState inv post) past s :=
  @bind _ _ _ (.ofState inv post) (fun value _ => middle value) p k past s h hnext

theorem bind_terms {ω : Type} {terms : Terms ω} {view : σ → ω}
    {ready : α → List Move → σ → Prop} {post : β → List Move → σ → Prop} {p : Program σ α}
    {k : α → Program σ β} {past : List Move} {s : σ}
    (h : p.Meets (terms.contract view ready) past s)
    (hnext : ∀ value past s, ready value past s → (k value).Meets (terms.contract view post) past s) :
    (p >>= k).Meets (terms.contract view post) past s :=
  @bind _ _ _ (terms.contract view post) ready p k past s h hnext

theorem mono_terms {ω : Type} {terms : Terms ω} {view : σ → ω} {ready post : α → List Move → σ → Prop}
    {p : Program σ α} {past : List Move} {s : σ} (h : p.Meets (terms.contract view ready) past s)
    (hready : ∀ value now s, ready value now s → post value now s) :
    p.Meets (terms.contract view post) past s :=
  h.mono (fun _ _ => id) (fun value now s _ => hready value now s) fun _ _ _ _ => id

theorem and_paths {ω : Type} {terms : Terms ω} {view : σ → ω}
    {ready Q : α → List Move → σ → Prop} {p : Program σ α} {past : List Move} {s : σ}
    (h : p.Meets (terms.contract view ready) past s)
    (hpaths : ∀ moves value s', Path ⟨p, s⟩ moves ⟨.pure value, s'⟩ → Q value (past ++ moves) s') :
    p.Meets (terms.contract view fun value now s' => ready value now s' ∧ Q value now s') past s := by
  refine (h.and (.of_paths p past s)).mono (fun _ _ => And.left) ?_ (fun _ _ _ _ => And.left)
    fun _ hassumes => ⟨hassumes, trivial⟩
  rintro value _ s' - ⟨hready, moves, rfl, hpath⟩
  exact ⟨hready, hpaths moves value s' hpath⟩

theorem get_bind {c : Contract σ β} {k : σ → Program σ β} {past : List Move} {s : σ}
    (h : c.during past s) (hnext : (k s).Meets c (past ++ [Move.inner none]) s) :
    (get >>= k).Meets c past s :=
  ⟨h, hnext⟩

theorem modify_bind {c : Contract σ β} {update : σ → σ} {k : Unit → Program σ β}
    {past : List Move} {s : σ} (h : c.during past s)
    (hnext : (k ()).Meets c (past ++ [Move.inner none]) (update s)) :
    (modify update >>= k).Meets c past s :=
  ⟨h, hnext⟩

theorem record_bind {c : Contract σ β} {event : Event} {update : σ → σ} {k : Unit → Program σ β}
    {past : List Move} {s : σ} (h : c.during past s)
    (hnext : (k ()).Meets c (past ++ [Move.inner (some event)]) (update s)) :
    (record event update >>= k).Meets c past s :=
  ⟨h, hnext⟩

theorem mark_bind {c : Contract σ β} {event : Event} {k : Unit → Program σ β} {past : List Move}
    {s : σ} (h : c.during past s) (hnext : (k ()).Meets c (past ++ [Move.inner (some event)]) s) :
    (mark event >>= k).Meets c past s :=
  ⟨h, hnext⟩

theorem of_forall {c : Contract σ α} {p : Program σ α} {past : List Move} {s : σ}
    (hduring : ∀ now s, c.during now s) (hreturns : ∀ value now s, c.returns value now s)
    (hfails : ∀ error now s, c.fails error now s) : p.Meets c past s :=
  (of_paths p past s).mono (fun now s _ => hduring now s) (fun value now s _ _ => hreturns value now s)
    (fun error now s _ _ => hfails error now s) fun _ _ => trivial

/-- Whatever a program does with a part of the state, it leaves the rest. -/
theorem of_zoom {part : Lens σ τ} {inv : σ → Prop} {post : α → σ → Prop} {p : Program τ α}
    {past : List Move} {s : σ} (hinv : ∀ t, inv (part.set s t))
    (hpost : ∀ value t, post value (part.set s t)) :
    (p.zoom part).Meets (.ofState inv post) past s :=
  .zoom (.of_forall (fun _ => hinv) (fun value _ => hpost value) fun _ _ => hinv)

theorem of_always {inv : σ → Prop} {post : α → σ → Prop} {p : Program σ α} {past : List Move} {s : σ}
    (h : p.Meets ((Terms.always inv).contract id fun value _ => post value) past s) :
    p.Meets (.ofState inv post) past s :=
  h.mono (fun _ _ => id) (fun _ _ _ _ => id) (fun _ _ _ h _ => h) fun _ _ => trivial

end Meets
end Program
end AuthenticatedMpc
