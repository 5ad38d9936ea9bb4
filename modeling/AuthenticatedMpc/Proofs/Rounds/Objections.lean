import AuthenticatedMpc.Proofs.Rounds.Exchange
import AuthenticatedMpc.Proofs.Runs.Judge

/-!
# What is wrong with the messages of a round

A reader takes one message of each peer and may object to what it finds. It fails for the first
objection: to a packet when it arrives, and to what was fetched before when it starts. All that is
left to find at the end of a round is a surplus.
-/

namespace AuthenticatedMpc

def failureOf {α : Type} : Except Error α → Option Error
  | .ok _ => none
  | .error error => some error

/-- What a reader has against the message of a peer. -/
abbrev Objections := PartyId → Payload → Option Error

/-- What is against the messages that cannot be read. -/
def unreadable {α : Type} (read : PartyId → Payload → Except Error α) : Objections :=
  fun peer payload => failureOf (read peer payload)

theorem findSome?_congr {α β : Type} {f g : α → Option β} {l : List α} (h : ∀ a ∈ l, f a = g a) :
    l.findSome? f = l.findSome? g := by
  rw [← List.head?_filterMap, ← List.head?_filterMap, List.filterMap_congr h]

theorem Party.exists_mem_peers (me : Party) : ∃ q, q ∈ me.peers := by
  have hparties := me.two_le_parties
  by_cases hid : me.id = 0
  · exact ⟨1, mem_peers.mpr ⟨hparties, by rw [hid]; exact Nat.one_ne_zero⟩⟩
  · exact ⟨0, mem_peers.mpr ⟨Nat.zero_lt_of_lt hparties, Ne.symm hid⟩⟩

namespace RoundBuffer

variable {α : Type}

/-- Whether a packet of the round was fetched from some party. -/
def isOpen (buffer : RoundBuffer) : Bool := buffer.fetched.any id

def closing? (phase : Phase) (before after : RoundBuffer) : Option Error :=
  if before.isOpen && !after.isOpen then
    before.surplus?.map fun (peer, count) => .desynchronized (.tooManyMessages peer count phase)
  else none

/-- What is wrong with the messages of a peer for a reader of the first of them. -/
def objection? (objects : Objections) (phase : Phase) (peer : PartyId) :
    List Payload → Option Error
  | [] => some (.desynchronized (.tooFewMessages peer phase))
  | payload :: _ => objects peer payload

/-- The first objection to what was fetched from peers before. -/
def firstObjection? (objects : Objections) (phase : Phase) (peers : List PartyId)
    (buffer : RoundBuffer) : Option Error :=
  peers.findSome? fun peer =>
    if buffer.hasFetched peer then objection? objects phase peer (buffer.pending peer) else none

/-- Nothing is fetched, and nothing is left to consume. -/
def Empty (me : Party) (phase : Phase) (b : RoundBuffer) : Prop :=
  ∃ out, b = of phase me.parties out (fun _ => []) fun _ => false

/-- A buffer between two gates: nothing was read in the round, or something from every peer. -/
inductive Tidy (me : Party) (phase : Phase) : RoundBuffer → Prop
  | unread (out : PartyId → List Payload) :
      Tidy me phase (.of phase me.parties out (fun _ => []) fun _ => false)
  | read (out held : PartyId → List Payload) {fetched : PartyId → Bool}
      (h : ∀ q ∈ me.peers, fetched q = true) : Tidy me phase (.of phase me.parties out held fetched)

end RoundBuffer

/-- A judge of a buffer with which rounds of the phase can be shipped and closed. A round that has
been read from is of the gate in evaluation. -/
structure Judge.Minds (judge : Judge RoundBuffer) (visit : Option Visit) (phase : Phase) :
    Prop where
  still : ∀ b b', judge.still b b'
  silent : ∀ b b', (b.isOpen = true → visit.map Visit.phase = some phase) →
    judge.fault? visit b (.inner none) b' = RoundBuffer.closing? phase b b'
  sent : ∀ b q packet reply,
    judge.fault? visit b (.sent q packet reply) b = (Move.sent q packet reply).failure?

/-- A judge of a buffer for a gate that reads with the objections. -/
structure Judge.Reads (judge : Judge RoundBuffer) (visit : Option Visit) (phase : Phase)
    (objects : Objections) : Prop extends Judge.Minds judge visit phase where
  visiting : visit.map Visit.phase = some phase
  refused : ∀ b q cause, judge.fault? visit b (.received q (.error cause)) b = some (.network cause)
  received : ∀ b q packet, judge.fault? visit b (.received q (.ok packet)) b =
    if packet.phase = phase then RoundBuffer.objection? objects phase q packet.messages
    else some (.desynchronized (.wrongPhase q packet.phase phase))

namespace RoundBuffer

variable {α : Type} {me : Party} {phase : Phase} {n : Nat} {out held : PartyId → List Payload}
  {fetched : PartyId → Bool} {q : PartyId} {read : PartyId → Payload → Except Error α}
  {judge : Judge RoundBuffer} {visit : Option Visit} {b : RoundBuffer}

theorem isOpen_of : (of phase n out held fetched).isOpen = true ↔ ∃ q < n, fetched q = true := by
  simp [isOpen, of]

theorem isOpen_read (h : ∀ q ∈ me.peers, fetched q = true) :
    (of phase me.parties out held fetched).isOpen = true := by
  obtain ⟨q, hq⟩ := me.exists_mem_peers
  exact isOpen_of.mpr ⟨q, (Party.mem_peers.mp hq).1, h q hq⟩

theorem Empty.tidy (h : Empty me phase b) : Tidy me phase b := by
  obtain ⟨out, rfl⟩ := h
  exact .unread out

theorem Empty.isOpen (h : Empty me phase b) : b.isOpen = false := by
  obtain ⟨out, rfl⟩ := h
  simp [RoundBuffer.isOpen, of]

theorem closing?_eq_none {b b' : RoundBuffer} (h : b.isOpen = true → b'.isOpen = true) :
    closing? phase b b' = none := by
  unfold closing?
  cases hb : b.isOpen with
  | false => rfl
  | true => simp [h hb]

end RoundBuffer

theorem Judge.Minds.silent_eq_none {judge : Judge RoundBuffer} {visit : Option Visit}
    {phase : Phase} (h : judge.Minds visit phase) {b b' : RoundBuffer}
    (hvisit : b.isOpen = true → visit.map Visit.phase = some phase)
    (hopen : b.isOpen = true → b'.isOpen = true) :
    judge.fault? visit b (.inner none) b' = none := by
  rw [h.silent b b' hvisit, RoundBuffer.closing?_eq_none hopen]

theorem Judge.Reads.silent_of_open {judge : Judge RoundBuffer} {visit : Option Visit}
    {phase : Phase} {objects : Objections} (h : judge.Reads visit phase objects)
    {b b' : RoundBuffer} (hopen : b.isOpen = true → b'.isOpen = true) :
    judge.fault? visit b (.inner none) b' = none :=
  h.silent_eq_none (fun _ => h.visiting) hopen

namespace RoundBuffer

/-! ## Reading -/

section Reading

variable {α : Type} {me : Party} {phase : Phase} {n : Nat} {out held : PartyId → List Payload}
  {fetched : PartyId → Bool} {q : PartyId} {read : PartyId → Payload → Except Error α}
  {judge : Judge RoundBuffer} {visit : Option Visit} {b : RoundBuffer} {inv : RoundBuffer → Prop}

def take (read : PartyId → Payload → Except Error α) (peer : PartyId) : Program RoundBuffer α := do
  let buffer ← Program.get
  match buffer.pending peer with
  | message :: _ =>
    Program.modify (·.consume peer)
    Program.ofExcept (read peer message)
  | [] => Program.fail (.desynchronized (.tooFewMessages peer buffer.phase))

def hear (me : PartyId) (read : PartyId → Payload → Except Error α) (peer : PartyId) :
    Program RoundBuffer α := do
  let buffer ← Program.get
  if buffer.isPeer me peer then
    fetch peer
    take read peer
  else Program.fail (.setup (.cannotReceive peer))

def hearAll (me : PartyId) (read : PartyId → Payload → Except Error α) :
    List PartyId → Program RoundBuffer (List α)
  | [] => pure []
  | peer :: rest => do
    let value ← hear me read peer
    let values ← hearAll me read rest
    pure (value :: values)

theorem receive_bind_read (me peer : PartyId) (read : PartyId → Payload → Except Error α) :
    (do
      let payload ← receive me peer
      Program.ofExcept (read peer payload)) = hear me read peer := by
  simp only [receive, hear, take, bind_assoc]
  congr 1
  funext buffer
  split
  · simp only [bind_assoc]
    congr 1
    funext _
    congr 1
    funext buffer
    cases buffer.pending peer <;> rfl
  · rfl

theorem quietly_take (hq : q < n) (hinv : ∀ held, inv (of phase n out held fetched)) :
    (take read q).Quietly inv
      (fun outcome b => match objection? (unreadable read) phase q (held q) with
        | some error => outcome = .error error
        | none => ∃ value, outcome = .ok value ∧
            b = of phase n out (Function.update held q (held q).tail) fetched)
      (of phase n out held fetched) := by
  refine .get_bind (hinv _) ?_
  rw [pending_of hq]
  cases hheld : held q with
  | nil => exact ⟨hinv _, rfl⟩
  | cons message messages =>
    refine .modify_bind (hinv _) ?_
    rw [consume_of, hheld]
    simp only [objection?, unreadable]
    cases read q message with
    | ok value => exact ⟨hinv _, value, rfl, rfl⟩
    | error error => exact ⟨hinv _, rfl⟩

theorem fetch_bind (peer : PartyId) (k : Unit → Program RoundBuffer α) : fetch peer >>= k = (do
    let buffer ← Program.get
    if buffer.hasFetched peer then k ()
    else
      let packet ← Program.await peer
      if packet.phase = buffer.phase then
        Program.modify (·.accept peer packet.messages)
        k ()
      else Program.fail (.desynchronized (.wrongPhase peer packet.phase buffer.phase))) := by
  simp only [fetch, bind_assoc]
  congr 1
  funext buffer
  split
  · rfl
  · simp only [bind_assoc]
    congr 1
    funext packet
    split <;> rfl

theorem quietly_hear (hq : q ∈ me.peers) (hfetched : fetched q = true)
    (hinv : ∀ held, inv (of phase me.parties out held fetched)) :
    (hear me.id read q).Quietly inv
      (fun outcome b => match objection? (unreadable read) phase q (held q) with
        | some error => outcome = .error error
        | none => ∃ value, outcome = .ok value ∧
            b = of phase me.parties out (Function.update held q (held q).tail) fetched)
      (of phase me.parties out held fetched) := by
  obtain ⟨hlt, hne⟩ := Party.mem_peers.mp hq
  refine .get_bind (hinv _) ?_
  rw [if_pos (isPeer_of.mpr ⟨hlt, hne⟩), fetch_bind]
  refine .get_bind (hinv _) ?_
  rw [hasFetched_of hlt, if_pos hfetched]
  exact quietly_take hlt hinv

theorem quietly_hearAll {peers : List PartyId} (hpeers : peers ⊆ me.peers) (hnodup : peers.Nodup)
    (hfetched : ∀ q ∈ peers, fetched q = true)
    (hinv : ∀ held, inv (of phase me.parties out held fetched)) :
    (hearAll me.id read peers).Quietly inv
      (fun outcome b =>
        match peers.findSome? fun q => objection? (unreadable read) phase q (held q) with
        | some error => outcome = .error error
        | none => ∃ values held', outcome = .ok values ∧ b = of phase me.parties out held' fetched)
      (of phase me.parties out held fetched) := by
  induction peers generalizing held with
  | nil => exact ⟨hinv _, [], held, rfl, rfl⟩
  | cons q peers ih =>
    obtain ⟨hq, hpeers⟩ := List.cons_subset.mp hpeers
    obtain ⟨hnotin, hnodup⟩ := List.nodup_cons.mp hnodup
    obtain ⟨hqfetched, hfetched⟩ := List.forall_mem_cons.mp hfetched
    have hhear := @quietly_hear α me phase out held fetched q read inv hq hqfetched hinv
    rw [List.findSome?_cons]
    cases hobjection : objection? (unreadable read) phase q (held q) with
    | some error =>
      simp only [hobjection] at hhear
      exact hhear.bind (fun _ _ _ => nofun) fun | _, _, rfl => rfl
    | none =>
      simp only [hobjection] at hhear
      refine hhear.bind ?_ (fun _ _ => nofun)
      rintro value _ - ⟨_, -, rfl⟩
      have hsame : ∀ x ∈ peers, Function.update held q (held q).tail x = held x :=
        fun x hx => Function.update_of_ne (ne_of_mem_of_not_mem hx hnotin) ..
      have hrest := @ih (Function.update held q (held q).tail) hpeers hnodup hfetched
      rw [findSome?_congr fun x hx => by rw [hsame x hx]] at hrest
      cases hobjections :
        peers.findSome? fun q => objection? (unreadable read) phase q (held q) with
      | some error =>
        simp only [hobjections] at hrest ⊢
        exact hrest.bind (fun _ _ _ => nofun) fun | _, _, rfl => rfl
      | none =>
        simp only [hobjections] at hrest ⊢
        refine hrest.bind ?_ (fun _ _ => nofun)
        rintro values b hb ⟨_, held', -, rfl⟩
        exact ⟨hb, _, held', rfl, rfl⟩

/-- The messages of a packet of the phase are taken in and the first of them is read, unless there
is an objection to it. -/
theorem settles_accept (hreads : judge.Reads visit phase (unreadable read)) (hq : q < n)
    (hheld : held q = []) {packet : Packet} (hphase : packet.phase = phase) :
    judge.Settles visit (of phase n out held fetched) (.received q (.ok packet))
      ⟨do
        Program.modify (·.accept q packet.messages)
        take read q, of phase n out held fetched⟩
      ((do
        Program.modify (·.accept q packet.messages)
        take read q : Program RoundBuffer α).Heeds judge
        (fun _ visit' b => visit' = visit ∧ ∃ rest, b =
          of phase n out (Function.update held q rest) (Function.update fetched q true))
        visit (of phase n out held fetched)) := by
  have haccept : (of phase n out held fetched).accept q packet.messages =
      of phase n out (Function.update held q packet.messages) (Function.update fetched q true) := by
    rw [accept_of, hheld, List.nil_append]
  have hopen : ∀ held', (of phase n out held' (Function.update fetched q true)).isOpen = true :=
    fun _ => isOpen_of.mpr ⟨q, hq, Function.update_self ..⟩
  have htake := @quietly_take α phase n out (Function.update held q packet.messages)
    (Function.update fetched q true) q read (fun b => b.isOpen = true) hq hopen
  rw [Function.update_self, Function.update_idem] at htake
  have hfault := hreads.received (of phase n out held fetched) q packet
  rw [if_pos hphase] at hfault
  cases hobjection : objection? (unreadable read) phase q packet.messages with
  | some error =>
    rw [hobjection] at hfault
    simp only [hobjection] at htake
    refine .of_some hfault (.modify_bind (hreads.still ..) ?_)
    rw [haccept]
    exact htake.mono (fun _ _ => hreads.still ..) fun _ _ => id
  | none =>
    rw [hobjection] at hfault
    simp only [hobjection] at htake
    refine .of_none hfault (.modify_bind ?_ ?_)
    · rw [haccept]
      exact hreads.silent_of_open fun _ => hopen _
    · rw [haccept]
      refine .of_quietly (htake.mono (fun _ => id) ?_) fun _ _ _ hb =>
        hreads.silent_of_open fun _ => hb
      rintro _ _ ⟨value, rfl, rfl⟩
      exact ⟨value, rfl, rfl, packet.messages.tail, rfl⟩

/-- The first message of a peer comes with its packet, to which there may be an objection. -/
theorem heeds_hear (hreads : judge.Reads visit phase (unreadable read)) (hq : q ∈ me.peers)
    (hheld : held q = []) (hfetched : fetched q = false) :
    (hear me.id read q).Heeds judge
      (fun _ visit' b => visit' = visit ∧ ∃ rest, b =
        of phase me.parties out (Function.update held q rest) (Function.update fetched q true))
      visit (of phase me.parties out held fetched) := by
  obtain ⟨hlt, hne⟩ := Party.mem_peers.mp hq
  refine .get_bind (hreads.silent_of_open id) ?_
  rw [if_pos (isPeer_of.mpr ⟨hlt, hne⟩), fetch_bind]
  refine .get_bind (hreads.silent_of_open id) ?_
  rw [hasFetched_of hlt, if_neg (by simp [hfetched])]
  refine .await_bind (hreads.refused _ q) (hreads.still ..) fun packet => ?_
  rw [phase_of]
  by_cases hphase : packet.phase = phase
  · rw [if_pos hphase]
    exact settles_accept hreads hlt hheld hphase
  · have hfault := hreads.received (of phase me.parties out held fetched) q packet
    rw [if_neg hphase] at hfault ⊢
    exact .of_some hfault ⟨hreads.still .., rfl⟩

theorem heeds_hearAll {peers : List PartyId} (hreads : judge.Reads visit phase (unreadable read))
    (hpeers : peers ⊆ me.peers) (hnodup : peers.Nodup) (hheld : ∀ q ∈ peers, held q = [])
    (hfetched : ∀ q ∈ peers, fetched q = false) :
    (hearAll me.id read peers).Heeds judge
      (fun _ visit' b => visit' = visit ∧ ∃ held' fetched', b =
        of phase me.parties out held' fetched' ∧ (∀ q ∈ peers, fetched' q = true) ∧
          ∀ q ∉ peers, fetched' q = fetched q) visit
      (of phase me.parties out held fetched) := by
  induction peers generalizing held fetched with
  | nil => exact ⟨rfl, held, fetched, rfl, by simp, fun _ _ => rfl⟩
  | cons q peers ih =>
    obtain ⟨hq, hpeers⟩ := List.cons_subset.mp hpeers
    obtain ⟨hnotin, hnodup⟩ := List.nodup_cons.mp hnodup
    obtain ⟨hqheld, hheld⟩ := List.forall_mem_cons.mp hheld
    obtain ⟨hqfetched, hfetched⟩ := List.forall_mem_cons.mp hfetched
    refine (heeds_hear hreads hq hqheld hqfetched).bind ?_
    rintro value _ _ ⟨rfl, rest, rfl⟩
    have hne : ∀ x ∈ peers, x ≠ q := fun x hx => ne_of_mem_of_not_mem hx hnotin
    refine (ih hpeers hnodup (fun x hx => ?_) fun x hx => ?_).bind ?_
    · rw [Function.update_of_ne (hne x hx), hheld x hx]
    · rw [Function.update_of_ne (hne x hx), hfetched x hx]
    · rintro values _ _ ⟨rfl, held', fetched', rfl, hread, hothers⟩
      refine ⟨rfl, held', fetched', rfl, List.forall_mem_cons.mpr ⟨?_, hread⟩, fun x hx => ?_⟩
      · rw [hothers q hnotin, Function.update_self]
      · obtain ⟨hxq, hx⟩ := not_or.mp (mt List.mem_cons.mpr hx)
        rw [hothers x hx, Function.update_of_ne hxq]

end Reading

/-! ## Between gates -/

namespace Tidy

variable {α : Type} {me : Party} {phase : Phase} {read : PartyId → Payload → Except Error α}
  {judge : Judge RoundBuffer} {visit : Option Visit} {b : RoundBuffer} {inv : RoundBuffer → Prop}
  {objects : Objections}

theorem phase_eq (h : Tidy me phase b) : b.phase = phase := by
  cases h <;> rfl

theorem postAll (h : Tidy me phase b) (payload : Payload) :
    Tidy me phase (b.postAll me.id payload) := by
  cases h with
  | unread out =>
    rw [postAll_of]
    exact .unread _
  | read out held hread =>
    rw [postAll_of]
    exact .read _ held hread

theorem clearQueue (h : Tidy me phase b) (q : PartyId) : Tidy me phase (b.clearQueue q) := by
  cases h with
  | unread out =>
    rw [clearQueue_of]
    exact .unread _
  | read out held hread =>
    rw [clearQueue_of]
    exact .read _ held hread

theorem firstObjection?_unread (out : PartyId → List Payload) :
    firstObjection? objects phase me.peers
      (of phase me.parties out (fun _ => []) fun _ => false) = none := by
  refine List.findSome?_eq_none_iff.mpr fun q hq => ?_
  rw [hasFetched_of (Party.mem_peers.mp hq).1, if_neg Bool.false_ne_true]

theorem firstObjection?_read {out held : PartyId → List Payload} {fetched : PartyId → Bool}
    (h : ∀ q ∈ me.peers, fetched q = true) :
    firstObjection? objects phase me.peers (of phase me.parties out held fetched) =
      me.peers.findSome? fun q => objection? objects phase q (held q) := by
  refine findSome?_congr fun q hq => ?_
  have hlt := (Party.mem_peers.mp hq).1
  rw [hasFetched_of hlt, if_pos (h q hq), pending_of hlt]

/-- A gate hears all peers, also if gates before it have heard them in the round. -/
theorem heeds_hearAll (h : Tidy me phase b) (hreads : judge.Reads visit phase (unreadable read))
    (hfine : firstObjection? (unreadable read) phase me.peers b = none) :
    (hearAll me.id read me.peers).Heeds judge (fun _ visit' b => visit' = visit ∧ Tidy me phase b)
      visit b := by
  cases h with
  | unread out =>
    refine (RoundBuffer.heeds_hearAll hreads (List.Subset.refl _) Party.nodup_peers (fun _ _ => rfl)
      fun _ _ => rfl).mono ?_
    rintro _ _ _ ⟨rfl, held', fetched', rfl, hread, -⟩
    exact ⟨rfl, .read out held' hread⟩
  | read out held hread =>
    rw [firstObjection?_read hread] at hfine
    have hquiet := @quietly_hearAll α me phase out held _ read (fun b => b.isOpen = true)
      me.peers (List.Subset.refl _) Party.nodup_peers hread fun _ => isOpen_read hread
    simp only [hfine] at hquiet
    refine .of_quietly (hquiet.mono (fun _ => id) ?_) fun _ _ _ hb =>
      hreads.silent_of_open fun _ => hb
    rintro _ _ ⟨values, held', rfl, rfl⟩
    exact ⟨values, rfl, rfl, .read out held' hread⟩

theorem givesUp_hearAll {error : Error} (h : Tidy me phase b) (hinv : ∀ b, inv b)
    (hfault : firstObjection? (unreadable read) phase me.peers b = some error) :
    (hearAll me.id read me.peers).GivesUp inv error b := by
  cases h with
  | unread out =>
    rw [firstObjection?_unread] at hfault
    cases hfault
  | read out held hread =>
    rw [firstObjection?_read hread] at hfault
    have hquiet := @quietly_hearAll α me phase out held _ read inv me.peers (List.Subset.refl _)
      Party.nodup_peers hread fun _ => hinv _
    simpa only [hfault] using hquiet

/-! ## The end of a round -/

theorem heeds_flushTo (h : Tidy me phase b) (hminds : judge.Minds visit phase)
    (hvisit : b.isOpen = true → visit.map Visit.phase = some phase) (peers : List PartyId) :
    (flushTo peers).Heeds judge
      (fun _ visit' b' => visit' = visit ∧ Tidy me phase b' ∧ b'.isOpen = b.isOpen) visit b := by
  induction peers generalizing b with
  | nil => exact ⟨rfl, h, rfl⟩
  | cons q peers ih =>
    refine .get_bind (hminds.silent_eq_none hvisit id) ?_
    split
    · exact ih h hvisit
    · exact .modify_bind (hminds.silent_eq_none hvisit id)
        (.transmit_bind (hminds.sent _ q _) (hminds.still ..) (ih (h.clearQueue q) hvisit))

theorem heeds_endRound (h : Tidy me phase b) (hminds : judge.Minds visit phase)
    (hvisit : b.isOpen = true → visit.map Visit.phase = some phase) :
    endRound.Heeds judge (fun _ visit' b' => visit' = visit ∧ Empty me phase b') visit b := by
  have hclear : Empty me phase b.clearInbox := by
    cases h with
    | unread out => exact ⟨out, clearInbox_of⟩
    | read out held hread => exact ⟨out, clearInbox_of⟩
  have hclosed := hclear.isOpen
  have hfault := hminds.silent b b.clearInbox hvisit
  refine .get_bind (hminds.silent_eq_none hvisit id) ?_
  rw [h.phase_eq]
  cases hsurplus : b.surplus? with
  | none =>
    have hnone : closing? phase b b.clearInbox = none := by simp [closing?, hsurplus]
    exact .modify_bind (hfault.trans hnone) ⟨rfl, hclear⟩
  | some surplus =>
    -- Only what was fetched can be left over.
    have hopen : b.isOpen = true := by
      cases h with
      | unread out =>
        rw [surplus?_of.mpr fun _ _ => rfl] at hsurplus
        cases hsurplus
      | read out held hread => exact isOpen_read hread
    have hsome : closing? phase b b.clearInbox =
        some (.desynchronized (.tooManyMessages surplus.1 surplus.2 phase)) := by
      simp [closing?, hsurplus, hopen, hclosed]
    exact .of_some (hfault.trans hsome) ⟨hminds.still .., rfl⟩

theorem heeds_ship (h : Tidy me phase b) (hminds : judge.Minds visit phase)
    (hvisit : b.isOpen = true → visit.map Visit.phase = some phase) :
    ship.Heeds judge (fun _ visit' b' => visit' = visit ∧ Empty me phase b') visit b := by
  have hflush : flush.Heeds judge
      (fun _ visit' b' => visit' = visit ∧ Tidy me phase b' ∧ b'.isOpen = b.isOpen) visit b :=
    .get_bind (hminds.silent_eq_none hvisit id) (h.heeds_flushTo hminds hvisit _)
  refine hflush.bind ?_
  rintro _ _ b' ⟨rfl, hb', hopen⟩
  exact hb'.heeds_endRound hminds fun hb => hvisit (hopen ▸ hb)

end Tidy

end RoundBuffer
end AuthenticatedMpc
