import AuthenticatedMpc.Proofs.Runs.Path

/-!
# Runs over a transport that does not fail

When every send succeeds and every receive delivers a packet, the packets received decide how a
program runs. `Program.Ends` relates what a party says and hears in a whole run to its outcome.
-/

namespace AuthenticatedMpc

variable {σ τ α β : Type}

theorem mapError_eq_ok_iff {ε ε' α : Type} {f : ε → ε'} {o : Except ε α} {value : α} :
    o.mapError f = .ok value ↔ o = .ok value := by
  cases o with
  | ok => exact (Except.ok.injEq ..).to_iff.trans (Except.ok.injEq ..).to_iff.symm
  | error =>
    constructor <;> intro h <;> cases h

theorem mapError_eq_error_iff {ε ε' α : Type} {f : ε → ε'} {o : Except ε α} {error : ε'} :
    o.mapError f = .error error ↔ ∃ cause, o = .error cause ∧ f cause = error := by
  cases o with
  | ok =>
    constructor
    · intro h
      cases h
    · rintro ⟨cause, h, -⟩
      cases h
  | error cause =>
    constructor
    · intro h
      exact ⟨cause, rfl, Except.error.inj h⟩
    · rintro ⟨_, h, rfl⟩
      cases h
      rfl

/-- What a party says or hears. -/
inductive Signal where
  | sent (peer : PartyId) (packet : Packet)
  | received (peer : PartyId) (packet : Packet)
  | closed
deriving DecidableEq, Repr

def receivedFrom (peer : PartyId) (talk : List Signal) : List Packet :=
  talk.filterMap fun
    | .received sender packet => if sender = peer then some packet else none
    | _ => none

def sentTo (peer : PartyId) (talk : List Signal) : List Packet :=
  talk.filterMap fun
    | .sent receiver packet => if receiver = peer then some packet else none
    | _ => none

section Talk

variable {peer q : PartyId} {packet : Packet} {talk : List Signal}

theorem receivedFrom_append (q : PartyId) (front back : List Signal) :
    receivedFrom q (front ++ back) = receivedFrom q front ++ receivedFrom q back :=
  List.filterMap_append

theorem sentTo_append (q : PartyId) (front back : List Signal) :
    sentTo q (front ++ back) = sentTo q front ++ sentTo q back :=
  List.filterMap_append

@[simp] theorem receivedFrom_sent :
    receivedFrom q (.sent peer packet :: talk) = receivedFrom q talk := rfl

@[simp] theorem receivedFrom_received : receivedFrom q (.received peer packet :: talk) =
    if peer = q then packet :: receivedFrom q talk else receivedFrom q talk := by
  unfold receivedFrom
  split <;> simp [*]

@[simp] theorem receivedFrom_closed : receivedFrom q (.closed :: talk) = receivedFrom q talk := rfl

@[simp] theorem sentTo_sent : sentTo q (.sent peer packet :: talk) =
    if peer = q then packet :: sentTo q talk else sentTo q talk := by
  unfold sentTo
  split <;> simp [*]

@[simp] theorem sentTo_received : sentTo q (.received peer packet :: talk) = sentTo q talk := rfl

@[simp] theorem sentTo_closed : sentTo q (.closed :: talk) = sentTo q talk := rfl

end Talk

namespace Program

/-- The program, run from a state, ends with an outcome and a final state after these signals. -/
def Ends : Program σ α → σ → List Signal → Except Error α → σ → Prop
  | pure value, s, talk, outcome, final => talk = [] ∧ outcome = .ok value ∧ final = s
  | fail error, s, talk, outcome, final => talk = [] ∧ outcome = .error error ∧ final = s
  | never, _, _, _, _ => False
  | step _ update next, s, talk, outcome, final => Ends (next s) (update s) talk outcome final
  | send peer packet next, s, talk, outcome, final =>
    ∃ rest, talk = .sent peer packet :: rest ∧ Ends (next (.ok ())) s rest outcome final
  | receive peer next, s, talk, outcome, final =>
    ∃ packet rest, talk = .received peer packet :: rest ∧
      Ends (next (.ok packet)) s rest outcome final
  | close next, s, talk, outcome, final =>
    ∃ rest, talk = .closed :: rest ∧ Ends next s rest outcome final

/-- As long as the program says and hears these signals, its state satisfies the invariant and changes
only as the relation allows. -/
def Stays (inv : σ → Prop) (R : σ → σ → Prop) : Program σ α → σ → List Signal → Prop
  | pure _, s, _ | fail _, s, _ | never, s, _ => inv s
  | step _ update next, s, talk => inv s ∧ R s (update s) ∧ Stays inv R (next s) (update s) talk
  | send _ _ next, s, talk =>
    inv s ∧ ∀ peer packet rest, talk = .sent peer packet :: rest → Stays inv R (next (.ok ())) s rest
  | receive _ next, s, talk =>
    inv s ∧ ∀ peer packet rest, talk = .received peer packet :: rest →
      Stays inv R (next (.ok packet)) s rest
  | close next, s, talk => inv s ∧ ∀ rest, talk = .closed :: rest → Stays inv R next s rest

variable {p : Program σ α} {k : α → Program σ β} {s s' final : σ} {talk talk' : List Signal}
  {value : α} {result : β} {outcome : Except Error β}

/-! ## Single steps -/

@[simp] theorem ends_pure {o : Except Error α} :
    (Pure.pure value : Program σ α).Ends s talk o final ↔
      talk = [] ∧ o = .ok value ∧ final = s := Iff.rfl

@[simp] theorem ends_fail {error : Error} {o : Except Error α} :
    (fail error : Program σ α).Ends s talk o final ↔
      talk = [] ∧ o = .error error ∧ final = s := Iff.rfl

@[simp] theorem ends_never {o : Except Error α} :
    (never : Program σ α).Ends s talk o final ↔ False := Iff.rfl

@[simp] theorem ends_get_bind {k : σ → Program σ β} :
    (get >>= k).Ends s talk outcome final ↔ (k s).Ends s talk outcome final := Iff.rfl

@[simp] theorem ends_modify_bind {update : σ → σ} {k : Unit → Program σ β} :
    (modify update >>= k).Ends s talk outcome final ↔
      (k ()).Ends (update s) talk outcome final := Iff.rfl

@[simp] theorem ends_modify {update : σ → σ} {o : Except Error Unit} :
    (modify update).Ends s talk o final ↔
      talk = [] ∧ o = .ok () ∧ final = update s := Iff.rfl

@[simp] theorem ends_mark_bind {event : Event} {k : Unit → Program σ β} :
    (mark event >>= k).Ends s talk outcome final ↔ (k ()).Ends s talk outcome final := Iff.rfl

@[simp] theorem ends_record_bind {event : Event} {update : σ → σ} {k : Unit → Program σ β} :
    (record event update >>= k).Ends s talk outcome final ↔
      (k ()).Ends (update s) talk outcome final := Iff.rfl

@[simp] theorem ends_transmit_bind {peer : PartyId} {packet : Packet} {k : Unit → Program σ β} :
    (transmit peer packet >>= k).Ends s talk outcome final ↔
      ∃ rest, talk = .sent peer packet :: rest ∧ (k ()).Ends s rest outcome final := Iff.rfl

@[simp] theorem ends_await_bind {peer : PartyId} {k : Packet → Program σ β} :
    (await peer >>= k).Ends s talk outcome final ↔
      ∃ packet rest, talk = .received peer packet :: rest ∧
        (k packet).Ends s rest outcome final := Iff.rfl

@[simp] theorem ends_ofExcept {o o' : Except Error α} :
    (ofExcept o : Program σ α).Ends s talk o' final ↔ talk = [] ∧ o' = o ∧ final = s := by
  cases o <;> exact Iff.rfl

@[simp] theorem ends_ofExcept_bind_ok {o : Except Error α} {result : β} :
    (ofExcept o >>= k).Ends s talk (.ok result) final ↔
      ∃ value, o = .ok value ∧ (k value).Ends s talk (.ok result) final := by
  cases o with
  | ok value =>
    refine ⟨fun h => ⟨value, rfl, h⟩, ?_⟩
    rintro ⟨_, hvalue, h⟩
    cases hvalue
    exact h
  | error => exact ⟨fun h => absurd h.2.1 nofun, fun ⟨_, h, _⟩ => absurd h nofun⟩

theorem stays_of_forall {inv : σ → Prop} {R : σ → σ → Prop} (hinv : ∀ s, inv s)
    (hR : ∀ s s', R s s') : p.Stays inv R s talk := by
  induction p generalizing s talk with
  | pure _ | fail _ | never => exact hinv s
  | step _ _ _ ih => exact ⟨hinv s, hR _ _, ih _⟩
  | send _ _ _ ih | receive _ _ ih => exact ⟨hinv s, fun _ _ _ _ => ih _⟩
  | close _ ih => exact ⟨hinv s, fun _ _ => ih⟩

theorem Ends.eq_of_hasEnded {o : Except Error α} (h : p.Ends s talk o final)
    (hended : p.hasEnded = true) : p = ofExcept o ∧ s = final := by
  cases p with
  | pure _ | fail _ =>
    obtain ⟨-, rfl, rfl⟩ := h
    exact ⟨rfl, rfl⟩
  | never | step _ _ _ | send _ _ _ | receive _ _ | close _ => cases hended

theorem Stays.inv {inv : σ → Prop} {R : σ → σ → Prop} (h : p.Stays inv R s talk) : inv s := by
  cases p with
  | pure _ | fail _ | never => exact h
  | step _ _ _ | send _ _ _ | receive _ _ | close _ => exact h.1

theorem Stays.next? {T : Type} {inv : σ → Prop} {R : σ → σ → Prop} (h : p.Stays inv R s talk)
    {net : Transport T} {t t' : T} {move : Move} {next : Actor σ α}
    (hnext : p.next? net s t = some (move, next, t')) : next.state = s ∨ R s next.state := by
  cases p with
  | pure _ | fail _ | never => cases hnext
  | step _ _ _ =>
    cases hnext
    exact .inr h.2.1
  | send _ _ _ | close _ =>
    cases hnext
    exact .inl rfl
  | receive peer _ =>
    rw [Program.next?] at hnext
    split at hnext
    · cases hnext
    · cases hnext
      exact .inl rfl

/-! ## Composition -/

theorem Ends.bind (first : p.Ends s talk (.ok value) s')
    (rest : (k value).Ends s' talk' outcome final) :
    (p >>= k).Ends s (talk ++ talk') outcome final := by
  induction p generalizing s talk with
  | pure _ =>
    obtain ⟨rfl, hvalue, rfl⟩ := first
    cases hvalue
    exact rest
  | fail _ => exact absurd first.2.1 nofun
  | never => exact first.elim
  | step _ _ _ ih => exact ih _ first
  | send _ _ _ ih =>
    obtain ⟨after, rfl, hafter⟩ := first
    exact ⟨after ++ talk', rfl, ih _ hafter⟩
  | receive _ _ ih =>
    obtain ⟨packet, after, rfl, hafter⟩ := first
    exact ⟨packet, after ++ talk', rfl, ih _ hafter⟩
  | close _ ih =>
    obtain ⟨after, rfl, hafter⟩ := first
    exact ⟨after ++ talk', rfl, ih hafter⟩

theorem Ends.bind_error {error : Error} (first : p.Ends s talk (.error error) s') :
    (p >>= k).Ends s talk (.error error) s' := by
  induction p generalizing s talk with
  | pure _ => exact absurd first.2.1 nofun
  | fail _ =>
    obtain ⟨rfl, herror, rfl⟩ := first
    cases herror
    exact ⟨rfl, rfl, rfl⟩
  | never => exact first.elim
  | step _ _ _ ih => exact ih _ first
  | send _ _ _ ih =>
    obtain ⟨after, rfl, hafter⟩ := first
    exact ⟨after, rfl, ih _ hafter⟩
  | receive _ _ ih =>
    obtain ⟨packet, after, rfl, hafter⟩ := first
    exact ⟨packet, after, rfl, ih _ hafter⟩
  | close _ ih =>
    obtain ⟨after, rfl, hafter⟩ := first
    exact ⟨after, rfl, ih hafter⟩

/-- Either the first part returns and the second ends the run, or the first part fails. -/
theorem ends_bind : (p >>= k).Ends s talk outcome final ↔
    (∃ value middle front back, talk = front ++ back ∧ p.Ends s front (.ok value) middle ∧
      (k value).Ends middle back outcome final) ∨
    ∃ error, outcome = .error error ∧ p.Ends s talk (.error error) final := by
  constructor
  · intro h
    induction p generalizing s talk with
    | pure value => exact .inl ⟨value, s, [], talk, rfl, ⟨rfl, rfl, rfl⟩, h⟩
    | fail error =>
      obtain ⟨rfl, rfl, rfl⟩ := h
      exact .inr ⟨error, rfl, rfl, rfl, rfl⟩
    | never => exact h.elim
    | step _ _ _ ih => exact ih _ h
    | send peer packet _ ih =>
      obtain ⟨after, rfl, hafter⟩ := h
      obtain ⟨value, middle, front, back, rfl, hfirst, hrest⟩ | ⟨error, rfl, hfirst⟩ := ih _ hafter
      · exact .inl ⟨value, middle, _ :: front, back, rfl, ⟨front, rfl, hfirst⟩, hrest⟩
      · exact .inr ⟨error, rfl, after, rfl, hfirst⟩
    | receive peer _ ih =>
      obtain ⟨packet, after, rfl, hafter⟩ := h
      obtain ⟨value, middle, front, back, rfl, hfirst, hrest⟩ | ⟨error, rfl, hfirst⟩ := ih _ hafter
      · exact .inl ⟨value, middle, _ :: front, back, rfl, ⟨packet, front, rfl, hfirst⟩, hrest⟩
      · exact .inr ⟨error, rfl, packet, after, rfl, hfirst⟩
    | close _ ih =>
      obtain ⟨after, rfl, hafter⟩ := h
      obtain ⟨value, middle, front, back, rfl, hfirst, hrest⟩ | ⟨error, rfl, hfirst⟩ := ih hafter
      · exact .inl ⟨value, middle, _ :: front, back, rfl, ⟨front, rfl, hfirst⟩, hrest⟩
      · exact .inr ⟨error, rfl, after, rfl, hfirst⟩
  · rintro (⟨value, middle, front, back, rfl, hfirst, hrest⟩ | ⟨error, rfl, hfirst⟩)
    · exact hfirst.bind hrest
    · exact hfirst.bind_error

theorem ends_bind_ok : (p >>= k).Ends s talk (.ok result) final ↔
    ∃ value middle front back, talk = front ++ back ∧ p.Ends s front (.ok value) middle ∧
      (k value).Ends middle back (.ok result) final := by
  rw [ends_bind]
  refine or_iff_left ?_
  rintro ⟨_, h, _⟩
  cases h

/-- The second part matters only where the first can end. -/
theorem ends_bind_congr {k' : α → Program σ β}
    (h : ∀ value middle front, p.Ends s front (.ok value) middle →
      ∀ {talk outcome final}, (k value).Ends middle talk outcome final ↔
        (k' value).Ends middle talk outcome final) :
    (p >>= k).Ends s talk outcome final ↔ (p >>= k').Ends s talk outcome final := by
  rw [ends_bind, ends_bind]
  refine or_congr_left ⟨?_, ?_⟩
  · rintro ⟨value, middle, front, back, rfl, hp, hk⟩
    exact ⟨value, middle, front, back, rfl, hp, (h _ _ _ hp).mp hk⟩
  · rintro ⟨value, middle, front, back, rfl, hp, hk⟩
    exact ⟨value, middle, front, back, rfl, hp, (h _ _ _ hp).mpr hk⟩

theorem ends_bind_pure {f : α → β} :
    (p >>= fun value => Pure.pure (f value)).Ends s talk (.ok result) final ↔
      ∃ value, result = f value ∧ p.Ends s talk (.ok value) final := by
  rw [ends_bind_ok]
  constructor
  · rintro ⟨value, _, _, _, rfl, h, rfl, hresult, rfl⟩
    exact ⟨value, Except.ok.inj hresult, by rwa [List.append_nil]⟩
  · rintro ⟨value, rfl, h⟩
    exact ⟨value, final, talk, [], (List.append_nil _).symm, h, rfl, rfl, rfl⟩

/-- Of two runs whose signals agree as far as they go, both are the same. -/
theorem Ends.unique {o o' : Except Error α} {back back' : List Signal}
    (h : p.Ends s talk o final) (h' : p.Ends s talk' o' s')
    (htalk : talk ++ back = talk' ++ back') : talk = talk' ∧ o = o' ∧ final = s' := by
  induction p generalizing s talk talk' with
  | pure _ | fail _ =>
    obtain ⟨rfl, rfl, rfl⟩ := h
    obtain ⟨rfl, rfl, rfl⟩ := h'
    exact ⟨rfl, rfl, rfl⟩
  | never => exact h.elim
  | step _ _ _ ih => exact ih _ h h' htalk
  | send _ _ _ ih =>
    obtain ⟨after, rfl, hafter⟩ := h
    obtain ⟨after', rfl, hafter'⟩ := h'
    obtain ⟨rfl, hrest⟩ := ih _ hafter hafter' (List.cons.inj htalk).2
    exact ⟨rfl, hrest⟩
  | receive _ _ ih =>
    obtain ⟨packet, after, rfl, hafter⟩ := h
    obtain ⟨packet', after', rfl, hafter'⟩ := h'
    obtain ⟨hpacket, hback⟩ := List.cons.inj htalk
    cases hpacket
    obtain ⟨rfl, hrest⟩ := ih _ hafter hafter' hback
    exact ⟨rfl, hrest⟩
  | close _ ih =>
    obtain ⟨after, rfl, hafter⟩ := h
    obtain ⟨after', rfl, hafter'⟩ := h'
    obtain ⟨rfl, hrest⟩ := ih hafter hafter' (List.cons.inj htalk).2
    exact ⟨rfl, hrest⟩

theorem Ends.bind_iff (first : p.Ends s talk (.ok value) s') :
    (p >>= k).Ends s (talk ++ talk') outcome final ↔ (k value).Ends s' talk' outcome final := by
  refine ⟨fun h => ?_, first.bind⟩
  obtain ⟨v, middle, front, back, htalk, hfirst, hrest⟩ | ⟨error, -, hfirst⟩ := ends_bind.mp h
  · obtain ⟨rfl, hvalue, rfl⟩ := first.unique hfirst htalk
    cases hvalue
    obtain rfl := List.append_cancel_left htalk
    exact hrest
  · obtain ⟨-, hvalue, -⟩ := first.unique hfirst (List.append_nil (talk ++ talk')).symm
    cases hvalue

theorem Ends.silent_bind_iff (first : p.Ends s [] (.ok value) s') :
    (p >>= k).Ends s talk outcome final ↔ (k value).Ends s' talk outcome final :=
  first.bind_iff

theorem ends_zoom {part : Lens σ τ} {p : Program τ α} {o : Except Error α} :
    (p.zoom part).Ends s talk o final ↔
      ∃ t, final = part.set s t ∧ p.Ends (part.get s) talk o t := by
  induction p generalizing s talk with
  | pure _ | fail _ =>
    constructor
    · rintro ⟨rfl, rfl, rfl⟩
      exact ⟨_, (part.set_get _).symm, rfl, rfl, rfl⟩
    · rintro ⟨_, rfl, rfl, rfl, rfl⟩
      exact ⟨rfl, rfl, part.set_get _⟩
  | never => exact ⟨False.elim, fun ⟨_, _, h⟩ => h.elim⟩
  | step _ _ _ ih =>
    simp only [zoom, Ends, ih, part.set_set, part.get_set]
  | send _ _ _ ih | receive _ _ ih | close _ ih =>
    simp only [zoom, Ends, ih]
    grind

theorem ends_attempt {p : Program σ α} {o : Except Error (Except Error α)} :
    p.attempt.Ends s talk o final ↔ ∃ o', o = .ok o' ∧ p.Ends s talk o' final := by
  induction p generalizing s talk with
  | pure _ | fail _ =>
    constructor
    · rintro ⟨rfl, rfl, rfl⟩
      exact ⟨_, rfl, rfl, rfl, rfl⟩
    · rintro ⟨_, rfl, rfl, rfl, rfl⟩
      exact ⟨rfl, rfl, rfl⟩
  | never => exact ⟨False.elim, fun ⟨_, _, h⟩ => h.elim⟩
  | step _ _ _ ih => exact ih _
  | send _ _ _ ih | receive _ _ ih | close _ ih =>
    simp only [attempt, Ends, ih]
    grind

/-! ## Invariants -/

section Invariants

variable {inv : σ → Prop} {R : σ → σ → Prop}

theorem Ends.stays_bind (hends : p.Ends s talk (.ok value) s') (first : p.Stays inv R s talk)
    (rest : (k value).Stays inv R s' talk') : (p >>= k).Stays inv R s (talk ++ talk') := by
  induction p generalizing s talk with
  | pure _ =>
    obtain ⟨rfl, hvalue, rfl⟩ := hends
    cases hvalue
    exact rest
  | fail _ => exact absurd hends.2.1 nofun
  | never => exact hends.elim
  | step _ _ _ ih => exact ⟨first.1, first.2.1, ih _ hends first.2.2⟩
  | send _ _ _ ih =>
    obtain ⟨after, rfl, hafter⟩ := hends
    refine ⟨first.1, fun _ _ _ heq => ?_⟩
    obtain ⟨-, rfl⟩ := List.cons.inj heq
    exact ih _ hafter (first.2 _ _ _ rfl)
  | receive _ _ ih =>
    obtain ⟨packet, after, rfl, hafter⟩ := hends
    refine ⟨first.1, fun _ _ _ heq => ?_⟩
    obtain ⟨hsignal, rfl⟩ := List.cons.inj heq
    cases hsignal
    exact ih _ hafter (first.2 _ _ _ rfl)
  | close _ ih =>
    obtain ⟨after, rfl, hafter⟩ := hends
    refine ⟨first.1, fun _ heq => ?_⟩
    obtain ⟨-, rfl⟩ := List.cons.inj heq
    exact ih hafter (first.2 _ rfl)

theorem stays_zoom {part : Lens σ τ} {p : Program τ α} (h : ∀ t, inv (part.set s t))
    (hR : ∀ t u, R (part.set s t) (part.set s u)) : (p.zoom part).Stays inv R s talk := by
  have hinv : inv s := part.set_get s ▸ h (part.get s)
  induction p generalizing s talk with
  | pure _ | fail _ | never => exact hinv
  | step _ update _ ih =>
    have hstep := hR (part.get s) (update (part.get s))
    rw [part.set_get] at hstep
    exact ⟨hinv, hstep, ih _ (fun t => by simpa only [part.set_set] using h t)
      (fun t u => by simpa only [part.set_set] using hR t u) (h _)⟩
  | send _ _ _ ih | receive _ _ ih => exact ⟨hinv, fun _ _ _ _ => ih _ h hR hinv⟩
  | close _ ih => exact ⟨hinv, fun _ _ => ih h hR hinv⟩

theorem Stays.attempt (h : p.Stays inv R s talk) : p.attempt.Stays inv R s talk := by
  induction p generalizing s talk with
  | pure _ | fail _ | never => exact h
  | step _ _ _ ih => exact ⟨h.1, h.2.1, ih _ h.2.2⟩
  | send _ _ _ ih | receive _ _ ih => exact ⟨h.1, fun _ _ _ heq => ih _ (h.2 _ _ _ heq)⟩
  | close _ ih => exact ⟨h.1, fun _ heq => ih (h.2 _ heq)⟩

end Invariants

end Program

/-! ## Runs as paths -/

namespace Move

/-- The transport has refused a send or a receive. -/
def hasFailed : Move → Bool
  | sent _ _ (.error _) | received _ (.error _) => true
  | _ => false

def signal? : Move → Option Signal
  | sent peer packet (.ok ()) => some (.sent peer packet)
  | received peer (.ok packet) => some (.received peer packet)
  | closed => some .closed
  | _ => none

end Move

/-- A run is a path without failures to the end of the program. -/
theorem ends_iff_path {p : Program σ α} {s final : σ} {talk : List Signal}
    {outcome : Except Error α} :
    p.Ends s talk outcome final ↔
      ∃ moves, Path ⟨p, s⟩ moves ⟨.ofExcept outcome, final⟩ ∧
        (∀ move ∈ moves, move.hasFailed = false) ∧ moves.filterMap Move.signal? = talk := by
  constructor
  · intro h
    induction p generalizing s talk with
    | pure _ | fail _ =>
      obtain ⟨rfl, rfl, rfl⟩ := h
      exact ⟨[], .refl _, by simp, rfl⟩
    | never => exact h.elim
    | step event _ _ ih =>
      obtain ⟨moves, hpath, hok, rfl⟩ := ih _ h
      exact ⟨_ :: moves, .head (.inner ..) hpath, List.forall_mem_cons.mpr ⟨rfl, hok⟩, rfl⟩
    | send _ _ _ ih =>
      obtain ⟨_, rfl, h⟩ := h
      obtain ⟨moves, hpath, hok, rfl⟩ := ih _ h
      exact ⟨_ :: moves, .head (.send ..) hpath, List.forall_mem_cons.mpr ⟨rfl, hok⟩, rfl⟩
    | receive _ _ ih =>
      obtain ⟨_, _, rfl, h⟩ := h
      obtain ⟨moves, hpath, hok, rfl⟩ := ih _ h
      exact ⟨_ :: moves, .head (.receive ..) hpath, List.forall_mem_cons.mpr ⟨rfl, hok⟩, rfl⟩
    | close _ ih =>
      obtain ⟨_, rfl, h⟩ := h
      obtain ⟨moves, hpath, hok, rfl⟩ := ih h
      exact ⟨_ :: moves, .head (.close ..) hpath, List.forall_mem_cons.mpr ⟨rfl, hok⟩, rfl⟩
  · rintro ⟨moves, hpath, hok, rfl⟩
    generalize hfrom : (⟨p, s⟩ : Actor σ α) = a at hpath
    generalize hto : (⟨.ofExcept outcome, final⟩ : Actor σ α) = b at hpath
    induction hpath generalizing p s with
    | refl =>
      obtain ⟨rfl, rfl⟩ := Actor.mk.inj (hfrom.trans hto.symm)
      exact Program.ends_ofExcept.mpr ⟨rfl, rfl, rfl⟩
    | head first _ ih =>
      subst hfrom
      have hrest := ih (fun move hmove => hok move (List.mem_cons_of_mem _ hmove)) rfl hto
      cases first with
      | inner => exact hrest
      | send _ _ _ _ reply =>
        cases reply with
        | ok => exact ⟨_, rfl, hrest⟩
        | error => exact absurd (hok _ (List.mem_cons_self ..)) nofun
      | receive _ _ _ reply =>
        cases reply with
        | ok => exact ⟨_, _, rfl, hrest⟩
        | error => exact absurd (hok _ (List.mem_cons_self ..)) nofun
      | close => exact ⟨_, rfl, hrest⟩

end AuthenticatedMpc
