import AuthenticatedMpc.Proofs.Runs.Contract
import AuthenticatedMpc.Proofs.Runs.Dialogue

/-!
# Programs that notice what they do not expect

A vigilant program gives up when the transport fails, and when a packet comes in another phase than
the one that it waits for. If every packet of the right phase is the one that is heard in some run
without failures, then the program does as in that run until it gives up.
-/

namespace AuthenticatedMpc

variable {σ τ α β : Type}

def talkOf (moves : List Move) : List Signal := moves.filterMap Move.signal?

theorem talkOf_append (front back : List Move) : talkOf (front ++ back) = talkOf front ++ talkOf back :=
  List.filterMap_append

section Talk

variable {past : List Move} {peer : PartyId} {packet : Packet} {cause : NetworkError}

@[simp] theorem talkOf_inner (event : Option Event) : talkOf (past ++ [Move.inner event]) = talkOf past :=
  (talkOf_append ..).trans (List.append_nil _)

@[simp] theorem talkOf_sent :
    talkOf (past ++ [.sent peer packet (.ok ())]) = talkOf past ++ [.sent peer packet] :=
  talkOf_append ..

@[simp] theorem talkOf_sent_error :
    talkOf (past ++ [.sent peer packet (.error cause)]) = talkOf past :=
  (talkOf_append ..).trans (List.append_nil _)

@[simp] theorem talkOf_received :
    talkOf (past ++ [.received peer (.ok packet)]) = talkOf past ++ [.received peer packet] :=
  talkOf_append ..

@[simp] theorem talkOf_received_error :
    talkOf (past ++ [.received peer (.error cause)]) = talkOf past :=
  (talkOf_append ..).trans (List.append_nil _)

theorem receivedFrom_talkOf_sent (q : PartyId) (reply : Except NetworkError Unit) :
    receivedFrom q (talkOf [.sent peer packet reply]) = [] := by
  cases reply <;> rfl

theorem sentTo_talkOf_received (q : PartyId) (reply : Except NetworkError Packet) :
    sentTo q (talkOf [.received peer reply]) = [] := by
  cases reply <;> rfl

end Talk

/-- The transport has failed, or a peer is elsewhere. -/
def Error.IsInterruption : Error → Prop
  | .network _ | .desynchronized _ => True
  | _ => False

/-! ## Following a talk -/

/-- Whoever hears a packet of the phase of the next one in the talk has heard that one. -/
def Recognizes (assumes : List Move → Prop) (past : List Move) (talk : List Signal) : Prop :=
  ∀ peer now front packet back heard, assumes now →
    receivedFrom peer talk = front ++ packet :: back →
    receivedFrom peer (talkOf now) = receivedFrom peer (talkOf past) ++ front ++ [heard] →
    heard.phase = packet.phase → heard = packet

/-- The party sends no more than the talk after the past, and when it returns it has said and heard all
of it. It fails only if it is interrupted. -/
def Contract.follows (assumes : List Move → Prop) (past : List Move) (talk : List Signal) (value : α)
    (final : σ) : Contract σ α where
  during now _ := ∀ q, sentTo q (talkOf now) <+: sentTo q (talkOf past) ++ sentTo q talk
  returns value' now s := value' = value ∧ s = final ∧ talkOf now = talkOf past ++ talk
  fails error _ _ := error.IsInterruption
  assumes := assumes

section Following

variable {assumes : List Move → Prop} {past : List Move} {move : Move} {signal : Signal}
  {talk : List Signal} {value : α} {s final : σ} {peer : PartyId} {packet heard : Packet}

theorem Contract.during_follows :
    (follows assumes past talk value final).during past s := fun _ => List.prefix_append ..

theorem Contract.during_follows_received :
    (follows assumes past talk value final).during (past ++ [.received peer (.ok heard)]) s := by
  intro q
  have hsent : sentTo q [.received peer heard] = [] := rfl
  rw [talkOf_received, sentTo_append, hsent, List.append_nil]
  exact List.prefix_append ..

theorem Contract.follows_of_talkOf_eq (htalk : talkOf (past ++ [move]) = talkOf past) :
    follows assumes (past ++ [move]) talk value final = follows assumes past talk value final := by
  rw [follows, follows, htalk]

/-- What has been said and what is still to be said add up to the same as before. -/
theorem Contract.follows_snoc (htalk : talkOf (past ++ [move]) = talkOf past ++ [signal]) :
    follows assumes (past ++ [move]) talk value final =
      follows assumes past (signal :: talk) value final := by
  have hsent : ∀ q, sentTo q (talkOf past ++ [signal]) ++ sentTo q talk =
      sentTo q (talkOf past) ++ sentTo q (signal :: talk) := by
    intro q
    rw [← sentTo_append, ← sentTo_append, List.append_assoc, List.singleton_append]
  simp only [follows, htalk, hsent, List.append_assoc, List.singleton_append]

theorem Recognizes.of_talkOf_eq (h : Recognizes assumes past talk)
    (htalk : talkOf (past ++ [move]) = talkOf past) : Recognizes assumes (past ++ [move]) talk := by
  rwa [Recognizes, htalk]

theorem Recognizes.snoc (h : Recognizes assumes past (signal :: talk))
    (htalk : talkOf (past ++ [move]) = talkOf past ++ [signal]) :
    Recognizes assumes (past ++ [move]) talk := by
  intro peer now front packet back heard hnow htalk' hheard hphase
  refine h peer now (receivedFrom peer [signal] ++ front) packet back heard hnow ?_ ?_ hphase
  · rw [← List.singleton_append, receivedFrom_append, htalk', List.append_assoc]
  · rw [hheard, htalk, receivedFrom_append, List.append_assoc (receivedFrom peer (talkOf past))]

theorem Recognizes.heard_eq (h : Recognizes assumes past (.received peer packet :: talk))
    (hnow : assumes (past ++ [.received peer (.ok heard)])) (hphase : heard.phase = packet.phase) :
    heard = packet := by
  have hself : ∀ packet : Packet, receivedFrom peer [.received peer packet] = [packet] := by
    intro packet
    rw [receivedFrom_received, if_pos rfl]
    rfl
  apply h peer _ [] packet (receivedFrom peer talk) heard hnow _ _ hphase
  · rw [← List.singleton_append, receivedFrom_append, hself]
    rfl
  · rw [talkOf_received, receivedFrom_append, hself, List.append_nil]

end Following

namespace Program

/-- The program gives up when the transport fails and when a packet is not of the phase that it waits
for. All its events satisfy one predicate, and all errors that are not of the transport another. -/
def Vigilant (P : Event → Prop) (Q : Error → Prop := fun _ => True) : Program σ α → Prop
  | pure _ | never => True
  | fail error => Q error
  | step event _ next => (∀ e, event = some e → P e) ∧ ∀ s, Vigilant P Q (next s)
  | send _ _ next =>
    (∀ cause, next (.error cause) = fail (.network cause)) ∧ Vigilant P Q (next (.ok ()))
  | receive _ next =>
    (∀ cause, next (.error cause) = fail (.network cause)) ∧
      (∃ phase, ∀ packet, packet.phase ≠ phase →
        ∃ cause, next (.ok packet) = fail (.desynchronized cause)) ∧
      ∀ packet, Vigilant P Q (next (.ok packet))
  | close _ => False

namespace Vigilant

variable {P : Event → Prop} {Q : Error → Prop} {p : Program σ α} {s s' final : σ} {value : α} {moves past : List Move}
  {talk : List Signal}

theorem bind {k : α → Program σ β} (first : p.Vigilant P Q) (rest : ∀ value, (k value).Vigilant P Q) :
    (p >>= k).Vigilant P Q := by
  induction p with
  | pure value => exact rest value
  | fail _ => exact first
  | never => trivial
  | step _ _ _ ih => exact ⟨first.1, fun s => ih s (first.2 s)⟩
  | send _ _ _ ih =>
    exact ⟨fun cause => congrArg (Program.bind · k) (first.1 cause), ih _ first.2⟩
  | receive _ _ ih =>
    obtain ⟨herror, ⟨phase, hphase⟩, hnext⟩ := first
    refine ⟨fun cause => congrArg (Program.bind · k) (herror cause), ⟨phase, fun packet hne => ?_⟩,
      fun packet => ih _ (hnext packet)⟩
    obtain ⟨cause, hfail⟩ := hphase packet hne
    exact ⟨cause, congrArg (Program.bind · k) hfail⟩
  | close _ _ => exact first.elim

theorem zoom {part : Lens σ τ} {p : Program τ α} (h : p.Vigilant P Q) :
    (p.zoom part).Vigilant P Q := by
  induction p with
  | pure _ | never => trivial
  | fail _ => exact h
  | step _ _ _ ih => exact ⟨h.1, fun s => ih _ (h.2 _)⟩
  | send _ _ _ ih => exact ⟨fun cause => congrArg (Program.zoom part) (h.1 cause), ih _ h.2⟩
  | receive _ _ ih =>
    obtain ⟨herror, ⟨phase, hphase⟩, hnext⟩ := h
    refine ⟨fun cause => congrArg (Program.zoom part) (herror cause), ⟨phase, fun packet hne => ?_⟩,
      fun packet => ih _ (hnext packet)⟩
    obtain ⟨cause, hfail⟩ := hphase packet hne
    exact ⟨cause, congrArg (Program.zoom part) hfail⟩
  | close _ _ => exact h.elim

theorem anyError (h : p.Vigilant P Q) : p.Vigilant P := by
  induction p with
  | pure _ | fail _ | never => trivial
  | step _ _ _ ih => exact ⟨h.1, fun s => ih s (h.2 s)⟩
  | send _ _ _ ih => exact ⟨h.1, ih _ h.2⟩
  | receive _ _ ih => exact ⟨h.1, h.2.1, fun packet => ih _ (h.2.2 packet)⟩
  | close _ _ => exact h.elim

theorem get_bind {k : σ → Program σ β} (h : ∀ s, (k s).Vigilant P Q) : (get >>= k).Vigilant P Q :=
  ⟨nofun, h⟩

theorem modify_bind {update : σ → σ} {k : Unit → Program σ β} (h : (k ()).Vigilant P Q) :
    (modify update >>= k).Vigilant P Q :=
  ⟨nofun, fun _ => h⟩

theorem modify {update : σ → σ} : (modify update).Vigilant P Q := ⟨nofun, fun _ => trivial⟩

theorem ofExcept {o : Except Error α} (h : ∀ error, o = .error error → Q error) :
    (Program.ofExcept o : Program σ α).Vigilant P Q := by
  cases o with
  | ok => trivial
  | error error => exact h error rfl

theorem transmit (peer : PartyId) (packet : Packet) :
    (Program.transmit peer packet : Program σ Unit).Vigilant P Q :=
  ⟨fun _ => rfl, trivial⟩

/-- A vigilant program returns only if the transport has not failed. -/
theorem of_path (h : p.Vigilant P Q) (hpath : Path ⟨p, s⟩ moves ⟨.pure value, s'⟩) :
    ∀ move ∈ moves, move.hasFailed = false ∧ ∀ e, move = .inner (some e) → P e := by
  induction p generalizing s moves with
  | pure _ =>
    obtain ⟨rfl, -⟩ := hpath.eq_of_pure
    nofun
  | fail _ | never => cases hpath with | head first => cases first
  | step _ _ _ ih =>
    cases hpath with
    | head first rest =>
      cases first
      refine List.forall_mem_cons.mpr ⟨⟨rfl, ?_⟩, ih _ (h.2 _) rest⟩
      rintro e ⟨⟩
      exact h.1 e rfl
  | send _ _ _ ih =>
    cases hpath with
    | head first rest =>
      cases first with
      | send _ _ _ _ reply =>
        cases reply with
        | ok => exact List.forall_mem_cons.mpr ⟨⟨rfl, nofun⟩, ih _ h.2 rest⟩
        | error cause =>
          rw [h.1] at rest
          cases rest with | head first => cases first
  | receive _ _ ih =>
    cases hpath with
    | head first rest =>
      cases first with
      | receive _ _ _ reply =>
        cases reply with
        | ok packet => exact List.forall_mem_cons.mpr ⟨⟨rfl, nofun⟩, ih _ (h.2.2 packet) rest⟩
        | error cause =>
          rw [h.1] at rest
          cases rest with | head first => cases first
  | close _ _ => exact h.elim

/-- A vigilant program that has returned has run without failures. -/
theorem ends_of_path (h : p.Vigilant P Q) (hpath : Path ⟨p, s⟩ moves ⟨.pure value, s'⟩) :
    p.Ends s (talkOf moves) (.ok value) s' :=
  ends_iff_path.mpr ⟨moves, hpath, fun move hmove => (h.of_path hpath move hmove).1, rfl⟩

theorem of_ends {error : Error} (h : p.Vigilant P Q) (hends : p.Ends s talk (.error error) final) :
    Q error := by
  induction p generalizing s talk with
  | pure _ => cases hends.2.1
  | fail _ =>
    cases hends.2.1
    exact h
  | never => exact hends.elim
  | step _ _ _ ih => exact ih _ (h.2 _) hends
  | send _ _ _ ih =>
    obtain ⟨_, -, hends⟩ := hends
    exact ih _ h.2 hends
  | receive _ _ ih =>
    obtain ⟨_, _, -, hends⟩ := hends
    exact ih _ (h.2.2 _) hends
  | close _ _ => exact h.elim

/-- A vigilant program does as in a run in which it returns, until it gives up, if it can only hear
packets of that run and packets of other phases. -/
theorem meets {assumes : List Move → Prop} (h : p.Vigilant P Q)
    (hends : p.Ends s talk (.ok value) final) (hrecognizes : Recognizes assumes past talk) :
    p.Meets (.follows assumes past talk value final) past s := by
  induction p generalizing s past talk with
  | pure _ =>
    obtain ⟨rfl, hvalue, rfl⟩ := hends
    cases hvalue
    exact ⟨Contract.during_follows, rfl, rfl, (List.append_nil _).symm⟩
  | fail _ => cases hends.2.1
  | never => exact hends.elim
  | step event update next ih =>
    have hrest := ih s (h.2 s) hends (hrecognizes.of_talkOf_eq (talkOf_inner event))
    rw [Contract.follows_of_talkOf_eq (talkOf_inner event)] at hrest
    exact ⟨Contract.during_follows, hrest⟩
  | send peer packet next ih =>
    obtain ⟨rest, rfl, hends⟩ := hends
    refine ⟨Contract.during_follows, fun reply => ?_⟩
    cases reply with
    | ok =>
      have hrest := ih (.ok ()) h.2 hends (hrecognizes.snoc talkOf_sent)
      rwa [Contract.follows_snoc talkOf_sent] at hrest
    | error cause =>
      rw [h.1, ← Contract.follows_of_talkOf_eq talkOf_sent_error]
      exact ⟨Contract.during_follows, trivial⟩
  | receive peer next ih =>
    obtain ⟨packet, rest, rfl, hends⟩ := hends
    obtain ⟨herror, ⟨phase, hphase⟩, hnext⟩ := h
    refine ⟨Contract.during_follows, fun reply hreply => ?_⟩
    cases reply with
    | ok heard =>
      by_cases hheard : heard.phase = packet.phase
      · obtain rfl := hrecognizes.heard_eq hreply hheard
        have hrest := ih (.ok heard) (hnext heard) hends (hrecognizes.snoc talkOf_received)
        rwa [Contract.follows_snoc talkOf_received] at hrest
      · -- The packet of the run is of the phase that the program waits for, so this one is not.
        have hne : heard.phase ≠ phase := by
          rintro rfl
          obtain ⟨cause, hfail⟩ := hphase packet (Ne.symm hheard)
          rw [hfail] at hends
          cases hends.2.1
        obtain ⟨cause, hfail⟩ := hphase heard hne
        rw [hfail]
        exact ⟨Contract.during_follows_received, trivial⟩
    | error cause =>
      rw [herror, ← Contract.follows_of_talkOf_eq talkOf_received_error]
      exact ⟨Contract.during_follows, trivial⟩
  | close _ _ => exact h.elim

end Vigilant
end Program
end AuthenticatedMpc
