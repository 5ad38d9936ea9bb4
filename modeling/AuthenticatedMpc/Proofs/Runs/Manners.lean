import AuthenticatedMpc.Proofs.Runs.Contract

/-!
# Manners

Whatever is received, a program may keep to certain messages and events and may keep an invariant of its
state. Both are then so at every moment of every run, also of one that fails.
-/

namespace AuthenticatedMpc

variable {σ τ α β : Type}

/-- What a party sends, and what happens inside it. -/
structure Manner where
  /-- Which messages are sent in a phase. -/
  sends : Phase → Payload → Prop
  marks : Event → Prop

/-- The moves in this manner. Anything may be received. -/
def Manner.Allows (manner : Manner) : Move → Prop
  | .sent _ packet _ => ∀ message ∈ packet.messages, manner.sends packet.phase message
  | .inner (some event) => manner.marks event
  | .inner none | .received _ _ | .closed => True

/-- So far all moves are in this manner, and the state has the invariant. -/
def Manner.Kept (manner : Manner) (inv : σ → Prop) (now : List Move) (s : σ) : Prop :=
  (∀ move ∈ now, manner.Allows move) ∧ inv s

theorem Manner.Kept.snoc {manner : Manner} {inv : σ → Prop} {inv' : τ → Prop} {now : List Move} {s : σ}
    {t : τ} {move : Move} (h : manner.Kept inv now s) (hmove : manner.Allows move) (ht : inv' t) :
    manner.Kept inv' (now ++ [move]) t :=
  ⟨List.forall_mem_append.mpr ⟨h.1, List.forall_mem_singleton.mpr hmove⟩, ht⟩

theorem Manner.Kept.silent {manner : Manner} {inv : σ → Prop} {now : List Move} {s : σ}
    (h : manner.Kept inv now s) : manner.Kept inv (now ++ [Move.inner none]) s :=
  h.snoc trivial h.2

/-- The contract of a program that keeps the manner and the invariant. It may fail as it likes. -/
def Manner.contract (manner : Manner) (inv : σ → Prop) (post : α → Prop) : Contract σ α where
  during := manner.Kept inv
  returns value _ _ := post value
  fails _ _ _ := True

namespace Program

/-- From any state with the invariant on, the program makes moves in this manner only, keeps the invariant
and returns only what is promised. -/
def Upholds (manner : Manner) (inv : σ → Prop) (post : α → Prop) (p : Program σ α) : Prop :=
  ∀ past s, manner.Kept inv past s → p.Meets (manner.contract inv post) past s

namespace Upholds

variable {manner : Manner} {inv : σ → Prop} {post : α → Prop} {post' : β → Prop} {p : Program σ α}

/-- A program that upholds an invariant does so along every path. -/
theorem path {a b : Actor σ α} {moves : List Move} (h : a.program.Upholds manner inv post)
    (hinv : inv a.state) (hpath : Path a moves b) :
    (∀ move ∈ moves, manner.Allows move) ∧ inv b.state := by
  have hmeets := h [] a.state ⟨nofun, hinv⟩
  exact (hmeets.path hpath fun _ _ => trivial).during

theorem pure {value : α} (h : post value) : (pure value : Program σ α).Upholds manner inv post :=
  fun _ _ hs => ⟨hs, h⟩

theorem fail {error : Error} : (fail error : Program σ α).Upholds manner inv post :=
  fun _ _ hs => ⟨hs, trivial⟩

theorem never : (never : Program σ α).Upholds manner inv post := fun _ _ hs => hs

theorem bind {k : α → Program σ β} (first : p.Upholds manner inv post)
    (rest : ∀ value, post value → (k value).Upholds manner inv post') :
    (p >>= k).Upholds manner inv post' := by
  intro past s hs
  have hfirst : p.Meets ((manner.contract inv post').before fun value now s =>
      post value ∧ manner.Kept inv now s) past s :=
    (first past s hs).mono (fun _ _ => id) (fun _ _ _ hnow hvalue => ⟨hvalue, hnow⟩) fun _ _ _ _ => id
  exact hfirst.bind fun value now s h => rest value h.1 now s h.2

theorem zoom {part : Lens σ τ} {inv' : τ → Prop} {p : Program τ α} (h : p.Upholds manner inv' post)
    (hget : ∀ s, inv s → inv' (part.get s)) (hset : ∀ s t, inv s → inv' t → inv (part.set s t)) :
    (p.zoom part).Upholds manner inv post := fun past s hs =>
  .zoom ((h past (part.get s) ⟨hs.1, hget s hs.2⟩).mono
    (fun _ t ht => ⟨ht.1, hset s t hs.2 ht.2⟩) (fun _ _ _ _ => id) fun _ _ _ _ => id)

theorem attempt_bind {k : Except Error α → Program σ β} (h : p.Upholds manner inv post)
    (hok : ∀ value, post value → (k (.ok value)).Upholds manner inv post')
    (herror : ∀ error, (k (.error error)).Upholds manner inv post') :
    (p.attempt >>= k).Upholds manner inv post' := fun past s hs =>
  .attempt_bind ((h past s hs).mono (fun _ _ => id)
    (fun value now s hnow hvalue => hok value hvalue now s hnow)
    fun error now s hnow _ => herror error now s hnow)

/-! ## Steps -/

theorem get_bind {k : σ → Program σ β} (h : ∀ s, inv s → (k s).Upholds manner inv post') :
    (get >>= k).Upholds manner inv post' :=
  fun _ s hs => ⟨hs, h s hs.2 _ s hs.silent⟩

theorem modify {update : σ → σ} (h : ∀ s, inv s → inv (update s)) :
    (modify update).Upholds manner inv fun _ => True :=
  fun _ s hs => ⟨hs, hs.snoc trivial (h s hs.2), trivial⟩

theorem set {s : σ} (h : inv s) : (set s).Upholds manner inv fun _ => True :=
  fun _ _ hs => ⟨hs, hs.snoc trivial h, trivial⟩

theorem record {event : Event} {update : σ → σ} (hevent : manner.marks event)
    (h : ∀ s, inv s → inv (update s)) : (record event update).Upholds manner inv fun _ => True :=
  fun _ s hs => ⟨hs, hs.snoc hevent (h s hs.2), trivial⟩

theorem mark {event : Event} (hevent : manner.marks event) :
    (mark event : Program σ Unit).Upholds manner inv fun _ => True :=
  fun _ _ hs => ⟨hs, hs.snoc hevent hs.2, trivial⟩

theorem ofExcept {outcome : Except Error α} (h : ∀ value, outcome = .ok value → post value) :
    (ofExcept outcome : Program σ α).Upholds manner inv post := by
  cases outcome with
  | ok value => exact .pure (h value rfl)
  | error => exact .fail

end Upholds
end Program
end AuthenticatedMpc
