import AuthenticatedMpc.Proofs.Runs.Path

/-!
# The parts of a run

A run of a composed program consists of runs of its parts: it is still in the first part, or the
first part has returned and the second goes on from there. A run that has ended ended in the part
that failed, or in the last one.
-/

namespace AuthenticatedMpc

variable {σ τ α β : Type}

/-- Moves that neither talk nor mark anything. -/
def Silent (moves : List Move) : Prop := ∀ move ∈ moves, move = .inner none

theorem Silent.nil : Silent [] := by simp [Silent]

theorem Silent.cons {moves : List Move} (h : Silent moves) : Silent (.inner none :: moves) :=
  List.forall_mem_cons.mpr ⟨rfl, h⟩

theorem Silent.append {front back : List Move} (hfront : Silent front) (hback : Silent back) :
    Silent (front ++ back) :=
  List.forall_mem_append.mpr ⟨hfront, hback⟩

namespace Path

variable {p : Program σ α} {k : α → Program σ β} {s s' : σ} {moves : List Move}

theorem of_bind {q : Program σ β} (h : Path ⟨p >>= k, s⟩ moves ⟨q, s'⟩) :
    (∃ p', q = p' >>= k ∧ Path ⟨p, s⟩ moves ⟨p', s'⟩) ∨
      ∃ front back value t, moves = front ++ back ∧ Path ⟨p, s⟩ front ⟨.pure value, t⟩ ∧
        Path ⟨k value, t⟩ back ⟨q, s'⟩ := by
  induction p generalizing s moves with
  | pure value => exact .inr ⟨[], moves, value, s, rfl, .refl _, h⟩
  | fail error =>
    cases h with
    | refl => exact .inl ⟨_, rfl, .refl _⟩
    | head step => cases step
  | never =>
    cases h with
    | refl => exact .inl ⟨_, rfl, .refl _⟩
    | head step => cases step
  | step event update next ih =>
    cases h with
    | refl => exact .inl ⟨_, rfl, .refl _⟩
    | head step rest =>
      cases step
      rcases ih _ rest with ⟨p', rfl, hpath⟩ | ⟨front, back, value, t, rfl, hfront, hback⟩
      · exact .inl ⟨p', rfl, .head (.inner ..) hpath⟩
      · exact .inr ⟨_, back, value, t, rfl, .head (.inner ..) hfront, hback⟩
  | send peer packet next ih | receive peer next ih =>
    cases h with
    | refl => exact .inl ⟨_, rfl, .refl _⟩
    | head step rest =>
      cases step
      rcases ih _ rest with ⟨p', rfl, hpath⟩ | ⟨front, back, value, t, rfl, hfront, hback⟩
      · exact .inl ⟨p', rfl, .head (by constructor) hpath⟩
      · exact .inr ⟨_, back, value, t, rfl, .head (by constructor) hfront, hback⟩
  | close next ih =>
    cases h with
    | refl => exact .inl ⟨_, rfl, .refl _⟩
    | head step rest =>
      cases step
      rcases ih rest with ⟨p', rfl, hpath⟩ | ⟨front, back, value, t, rfl, hfront, hback⟩
      · exact .inl ⟨p', rfl, .head (.close ..) hpath⟩
      · exact .inr ⟨_, back, value, t, rfl, .head (.close ..) hfront, hback⟩

/-- A composed program that has ended failed in its first part, or ended in its second. -/
theorem ended_of_bind {outcome : Except Error β}
    (h : Path ⟨p >>= k, s⟩ moves ⟨.ofExcept outcome, s'⟩) :
    (∃ error, outcome = .error error ∧ Path ⟨p, s⟩ moves ⟨.ofExcept (.error error), s'⟩) ∨
      ∃ front back value t, moves = front ++ back ∧
        Path ⟨p, s⟩ front ⟨.ofExcept (.ok value), t⟩ ∧
        Path ⟨k value, t⟩ back ⟨.ofExcept outcome, s'⟩ := by
  rcases h.of_bind with ⟨p', hend, hpath⟩ | hnext
  · cases p' with
    | pure value =>
      refine .inr ⟨moves, [], value, s', (List.append_nil _).symm, hpath, ?_⟩
      have hk : k value = .ofExcept outcome := hend.symm
      rw [hk]
      exact .refl _
    | fail error =>
      cases outcome with
      | ok value => cases hend
      | error error' =>
        cases hend
        exact .inl ⟨error, rfl, hpath⟩
    | never | step | send | receive | close => cases outcome <;> cases hend
  · exact .inr hnext

theorem ended_of_bind_ok {result : β} (h : Path ⟨p >>= k, s⟩ moves ⟨.ofExcept (.ok result), s'⟩) :
    ∃ front back value t, moves = front ++ back ∧ Path ⟨p, s⟩ front ⟨.ofExcept (.ok value), t⟩ ∧
      Path ⟨k value, t⟩ back ⟨.ofExcept (.ok result), s'⟩ := by
  obtain ⟨_, hfailed, -⟩ | hnext := h.ended_of_bind
  · cases hfailed
  · exact hnext

/-- Wherever a program on a part of the state is, it is there on that part. -/
theorem moment_of_zoom {part : Lens σ τ} {p : Program τ α} {q : Program σ α}
    (h : Path ⟨p.zoom part, s⟩ moves ⟨q, s'⟩) :
    ∃ p' t, q = p'.zoom part ∧ s' = part.set s t ∧ Path ⟨p, part.get s⟩ moves ⟨p', t⟩ := by
  have hrefl : ∀ p : Program τ α,
      ∃ p' t, p.zoom part = p'.zoom part ∧ s = part.set s t ∧ Path ⟨p, part.get s⟩ [] ⟨p', t⟩ :=
    fun p => ⟨p, part.get s, rfl, (part.set_get s).symm, .refl _⟩
  induction p generalizing s moves with
  | pure _ | fail _ | never =>
    cases h with
    | refl => exact hrefl _
    | head step => cases step
  | step event update next ih =>
    cases h with
    | refl => exact hrefl (.step event update next)
    | head step rest =>
      cases step
      obtain ⟨p', t, rfl, rfl, hpath⟩ := ih _ rest fun p =>
        ⟨p, _, rfl, (part.set_get _).symm, .refl _⟩
      rw [part.get_set] at hpath
      exact ⟨p', t, rfl, part.set_set .., .head (.inner ..) hpath⟩
  | send peer packet next ih =>
    cases h with
    | refl => exact hrefl (.send peer packet next)
    | head step rest =>
      cases step
      obtain ⟨p', t, rfl, rfl, hpath⟩ := ih _ rest hrefl
      exact ⟨p', t, rfl, rfl, .head (.send ..) hpath⟩
  | receive peer next ih =>
    cases h with
    | refl => exact hrefl (.receive peer next)
    | head step rest =>
      cases step
      obtain ⟨p', t, rfl, rfl, hpath⟩ := ih _ rest hrefl
      exact ⟨p', t, rfl, rfl, .head (.receive ..) hpath⟩
  | close next ih =>
    cases h with
    | refl => exact hrefl (.close next)
    | head step rest =>
      cases step
      obtain ⟨p', t, rfl, rfl, hpath⟩ := ih rest hrefl
      exact ⟨p', t, rfl, rfl, .head (.close ..) hpath⟩

theorem ended_of_zoom {part : Lens σ τ} {p : Program τ α} {outcome : Except Error α}
    (h : Path ⟨p.zoom part, s⟩ moves ⟨.ofExcept outcome, s'⟩) :
    ∃ t, s' = part.set s t ∧ Path ⟨p, part.get s⟩ moves ⟨.ofExcept outcome, t⟩ := by
  obtain ⟨p', t, hend, rfl, hpath⟩ := h.moment_of_zoom
  have hp' : p' = .ofExcept outcome := by
    cases outcome <;> cases p' <;> cases hend <;> rfl
  rw [hp'] at hpath
  exact ⟨t, rfl, hpath⟩

theorem ended_of_attempt {p : Program σ α} {outcome : Except Error (Except Error α)}
    (h : Path ⟨p.attempt, s⟩ moves ⟨.ofExcept outcome, s'⟩) :
    ∃ outcome', outcome = .ok outcome' ∧ Path ⟨p, s⟩ moves ⟨.ofExcept outcome', s'⟩ := by
  generalize hend : (⟨.ofExcept outcome, s'⟩ : Actor σ (Except Error α)) = final at h
  induction p generalizing s moves with
  | pure value =>
    obtain ⟨rfl, rfl⟩ := h.eq_of_pure
    cases outcome <;> cases hend
    exact ⟨.ok value, rfl, .refl _⟩
  | fail error =>
    obtain ⟨rfl, rfl⟩ := h.eq_of_pure
    cases outcome <;> cases hend
    exact ⟨.error error, rfl, .refl _⟩
  | never =>
    cases h with
    | refl => cases outcome <;> cases hend
    | head step => cases step
  | step event update next ih =>
    cases h with
    | refl => cases outcome <;> cases hend
    | head step rest =>
      cases step
      obtain ⟨outcome', houtcome, hpath⟩ := ih _ rest
      exact ⟨outcome', houtcome, .head (.inner ..) hpath⟩
  | send peer packet next ih | receive peer next ih =>
    cases h with
    | refl => cases outcome <;> cases hend
    | head step rest =>
      cases step
      obtain ⟨outcome', houtcome, hpath⟩ := ih _ rest
      exact ⟨outcome', houtcome, .head (by constructor) hpath⟩
  | close next ih =>
    cases h with
    | refl => cases outcome <;> cases hend
    | head step rest =>
      cases step
      obtain ⟨outcome', houtcome, hpath⟩ := ih rest
      exact ⟨outcome', houtcome, .head (.close ..) hpath⟩

theorem ended_of_attempt_bind {k : Except Error α → Program σ β} {outcome : Except Error β}
    (h : Path ⟨p.attempt >>= k, s⟩ moves ⟨.ofExcept outcome, s'⟩) :
    ∃ front back result t, moves = front ++ back ∧ Path ⟨p, s⟩ front ⟨.ofExcept result, t⟩ ∧
      Path ⟨k result, t⟩ back ⟨.ofExcept outcome, s'⟩ := by
  obtain ⟨_, -, hfailed⟩ | ⟨front, back, result, t, rfl, hattempt, hback⟩ := h.ended_of_bind
  · obtain ⟨_, hresult, -⟩ := hfailed.ended_of_attempt
    cases hresult
  · obtain ⟨_, hresult, hfront⟩ := hattempt.ended_of_attempt
    obtain rfl := Except.ok.inj hresult
    exact ⟨front, back, result, t, rfl, hfront, hback⟩

theorem ended_of_step {event : Option Event} {update : σ → σ} {next : σ → Program σ α}
    {outcome : Except Error α}
    (h : Path ⟨.step event update next, s⟩ moves ⟨.ofExcept outcome, s'⟩) :
    ∃ rest, moves = .inner event :: rest ∧
      Path ⟨next s, update s⟩ rest ⟨.ofExcept outcome, s'⟩ := by
  generalize hend : (⟨.ofExcept outcome, s'⟩ : Actor σ α) = final at h
  cases h with
  | refl => cases outcome <;> cases hend
  | head step rest =>
    cases step
    exact ⟨_, rfl, rest⟩

theorem ended_of_get_bind {k : σ → Program σ β} {outcome : Except Error β}
    (h : Path ⟨Program.get >>= k, s⟩ moves ⟨.ofExcept outcome, s'⟩) :
    ∃ rest, moves = .inner none :: rest ∧ Path ⟨k s, s⟩ rest ⟨.ofExcept outcome, s'⟩ :=
  ended_of_step h

theorem ended_of_modify_bind {update : σ → σ} {k : Unit → Program σ β} {outcome : Except Error β}
    (h : Path ⟨Program.modify update >>= k, s⟩ moves ⟨.ofExcept outcome, s'⟩) :
    ∃ rest, moves = .inner none :: rest ∧ Path ⟨k (), update s⟩ rest ⟨.ofExcept outcome, s'⟩ :=
  ended_of_step h

theorem ended_of_record_bind {event : Event} {update : σ → σ} {k : Unit → Program σ β}
    {outcome : Except Error β}
    (h : Path ⟨Program.record event update >>= k, s⟩ moves ⟨.ofExcept outcome, s'⟩) :
    ∃ rest, moves = .inner (some event) :: rest ∧
      Path ⟨k (), update s⟩ rest ⟨.ofExcept outcome, s'⟩ :=
  ended_of_step h

theorem ended_of_pure {value : α} {outcome : Except Error α}
    (h : Path ⟨.pure value, s⟩ moves ⟨.ofExcept outcome, s'⟩) :
    moves = [] ∧ outcome = .ok value ∧ s' = s := by
  obtain ⟨rfl, hend⟩ := h.eq_of_pure
  cases outcome <;> cases hend
  exact ⟨rfl, rfl, rfl⟩

theorem ended_of_fail {error : Error} {outcome : Except Error α}
    (h : Path ⟨.fail error, s⟩ moves ⟨.ofExcept outcome, s'⟩) :
    moves = [] ∧ outcome = .error error ∧ s' = s := by
  generalize hend : (⟨.ofExcept outcome, s'⟩ : Actor σ α) = final at h
  cases h with
  | refl =>
    cases outcome <;> cases hend
    exact ⟨rfl, rfl, rfl⟩
  | head step => cases step

end Path

def Program.failure? : Program σ α → Option Error
  | .fail error => some error
  | _ => none

theorem Program.eq_fail_of_failure? {p : Program σ α} {error : Error}
    (h : p.failure? = some error) : p = .fail error := by
  cases p with
  | fail => exact congrArg _ (Option.some.inj h)
  | pure | never | step | send | receive | close => cases h

/-- The party after at most so many moves, over a transport that takes no packet. -/
def Actor.refuse (cause : NetworkError) : Nat → Actor σ α → List Move × Actor σ α
  | count + 1, ⟨.step event update next, s⟩ =>
    let (moves, actor) := refuse cause count ⟨next s, update s⟩
    (.inner event :: moves, actor)
  | count + 1, ⟨.send peer packet next, s⟩ =>
    let (moves, actor) := refuse cause count ⟨next (.error cause), s⟩
    (.sent peer packet (.error cause) :: moves, actor)
  | _, actor => ([], actor)

theorem Path.refuse (cause : NetworkError) (count : Nat) (actor : Actor σ α) :
    Path actor (actor.refuse cause count).1 (actor.refuse cause count).2 := by
  induction count generalizing actor with
  | zero => exact .refl _
  | succ count ih =>
    obtain ⟨program, s⟩ := actor
    cases program with
    | step event update next => exact .head (.inner ..) (ih _)
    | send peer packet next => exact .head (.send ..) (ih _)
    | pure | fail | never | receive | close => exact .refl _

theorem Path.exists_fail {cause : NetworkError} {count : Nat} {actor : Actor σ α} {error : Error}
    (h : (actor.refuse cause count).2.program.failure? = some error) :
    ∃ moves final, Path actor moves ⟨.ofExcept (.error error), final⟩ := by
  have hpath := Path.refuse cause count actor
  generalize actor.refuse cause count = refused at h hpath
  obtain ⟨moves, program, final⟩ := refused
  obtain rfl := Program.eq_fail_of_failure? h
  exact ⟨moves, final, hpath⟩

def Program.value? : Program σ α → Option α
  | .pure value => some value
  | _ => none

theorem Program.eq_pure_of_value? {p : Program σ α} {value : α} (h : p.value? = some value) :
    p = .pure value := by
  cases p with
  | pure => exact congrArg _ (Option.some.inj h)
  | fail | never | step | send | receive | close => cases h

/-- A party that needs no transport returns by itself. -/
theorem Path.exists_pure {count : Nat} {actor : Actor σ α} {value : α}
    (h : (actor.settle count).2.program.value? = some value) :
    ∃ moves final, Path actor moves ⟨.ofExcept (.ok value), final⟩ := by
  have hpath := Path.settle count actor
  generalize actor.settle count = settled at h hpath
  obtain ⟨moves, program, final⟩ := settled
  obtain rfl := Program.eq_pure_of_value? h
  exact ⟨moves, final, hpath⟩

end AuthenticatedMpc
