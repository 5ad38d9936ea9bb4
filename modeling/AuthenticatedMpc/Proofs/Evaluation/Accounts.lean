import AuthenticatedMpc.Proofs.Circuit.OpeningRounds
import AuthenticatedMpc.Proofs.Evaluation.Course
import AuthenticatedMpc.Proofs.MacCheck.Vigilance

/-!
# What exchanges tell of an evaluation

A party that goes on has made whole exchanges. Their packets alone tell which values were opened in
which batch, and where they were checked: the phase tells a batch from a check, a batch that opens
anything takes one exchange with one message for each value, and a check takes four. So two parties
that have made the same exchanges have opened and checked the same, whatever their circuits, batches
and schedules are.
-/

namespace AuthenticatedMpc

/-- What the exchanges of a party tell: its entries, and the number of values opened since the last
check. -/
inductive EntriesOfExchanges (me : Party) : List (PartyId → Packet) → List Entry → Nat → Prop
  | nil : EntriesOfExchanges me [] [] 0
  | batch {exchanges : List (PartyId → Packet)} {entries : List Entry} {pending : Nat}
      (before : EntriesOfExchanges me exchanges entries pending) (packets : PartyId → Packet)
      (batch : UInt64)
      (values : List Element)
      (phase : ∀ q < me.parties, (packets q).phase = .circuit batch ∧
        (packets q).messages.length = values.length)
      (reads : ∀ place value, values[place]? = some value →
        Reads me (packets me.id) (fun q => some (packets q)) place value) :
      EntriesOfExchanges me (exchanges ++ [packets]) (entries ++ values.map (.opened batch))
        (pending + values.length)
  | check {exchanges : List (PartyId → Packet)} {entries : List Entry} {pending : Nat}
      (before : EntriesOfExchanges me exchanges entries pending)
      (packets : List (PartyId → Packet)) (number : UInt64)
      (length : packets.length = 4)
      (phase : ∀ packet ∈ packets, ∀ q, (packet q).phase = .macCheck number) :
      EntriesOfExchanges me (exchanges ++ packets) (entries ++ [.checked pending]) 0

namespace EntriesOfExchanges

variable {me : Party} {exchanges made : List (PartyId → Packet)} {entries : List Entry}
  {records new : List Record} {batch : UInt64} {openings : List Opening}
  {Fine : PartyId → Packet → Prop}

theorem opens (h : EntriesOfExchanges me exchanges entries records.length)
    (hopens : OpensBatch me (.circuit batch) Fine openings made new) :
    EntriesOfExchanges me (exchanges ++ made) (entries ++ new.map (.opened batch ·.value))
      (records ++ new).length := by
  have hmade := hopens
  cases hopens with
  | nothing => simpa using h
  | exchange packets _ hown hpeers hmacs hreads =>
    have hphase : ∀ q < me.parties, (packets q).phase = .circuit batch ∧
        (packets q).messages.length = (new.map Record.value).length := by
      intro q hq
      rw [List.length_map]
      exact hmade.packets hq
    have hvalues : ∀ place value, (new.map Record.value)[place]? = some value →
        Reads me (packets me.id) (fun q => some (packets q)) place value := by
      intro place value hplace
      rw [List.getElem?_map, Option.map_eq_some_iff] at hplace
      obtain ⟨record, hrecord, rfl⟩ := hplace
      exact hreads place record hrecord
    have hentriesOf := h.batch packets batch (new.map Record.value) hphase hvalues
    rwa [List.map_map, List.length_map, ← List.length_append] at hentriesOf

end EntriesOfExchanges

/-! ## Parties that have made the same exchanges -/

section Agreement

variable {table : Table} {i j : Fin table.parties} {exchanges exchanges' : List (PartyId → Packet)}
  {entries entries' : List Entry} {pending pending' : Nat}

/-- The exchanges are the same for all parties at the table. -/
def Table.SamePackets (table : Table) (exchanges exchanges' : List (PartyId → Packet)) : Prop :=
  ∀ q < table.parties, exchanges.map (· q) = exchanges'.map (· q)

theorem Table.SamePackets.symm (h : table.SamePackets exchanges exchanges') :
    table.SamePackets exchanges' exchanges :=
  fun q hq => (h q hq).symm

theorem Table.SamePackets.append_inj {last last' : List (PartyId → Packet)}
    (h : table.SamePackets (exchanges ++ last) (exchanges' ++ last'))
    (hlength : last.length = last'.length) :
    table.SamePackets exchanges exchanges' ∧ table.SamePackets last last' := by
  have hsplit : ∀ q < table.parties, exchanges.map (· q) = exchanges'.map (· q) ∧
      last.map (· q) = last'.map (· q) := by
    intro q hq
    have hall := h q hq
    rw [List.map_append, List.map_append] at hall
    exact List.append_inj' hall (by rw [List.length_map, List.length_map, hlength])
  exact ⟨fun q hq => (hsplit q hq).1, fun q hq => (hsplit q hq).2⟩

theorem Table.SamePackets.head {packets packets' : PartyId → Packet}
    (h : table.SamePackets [packets] [packets'])
    {q : PartyId} (hq : q < table.parties) : packets q = packets' q :=
  List.singleton_inj.mp (h q hq)

/-- The last exchange of a check is not one of a batch. -/
theorem Table.not_same {packets : PartyId → Packet} {last : List (PartyId → Packet)}
    {batch number : UInt64} (hbatch : ∀ q < table.parties, (packets q).phase = .circuit batch)
    (hlength : last.length = 4) (hcheck : ∀ packet ∈ last, ∀ q, (packet q).phase = .macCheck number) :
    ¬table.SamePackets (exchanges ++ [packets]) (exchanges' ++ last) := by
  intro h
  obtain rfl | ⟨front, final, rfl⟩ := List.eq_nil_or_concat last
  · cases hlength
  rw [List.concat_eq_append, ← List.append_assoc] at h
  have hzero : 0 < table.parties := Nat.lt_of_lt_of_le Nat.two_pos table.two_le
  have hphase := congrArg Packet.phase ((h.append_inj rfl).2.head hzero)
  rw [hbatch 0 hzero, hcheck final (by simp) 0] at hphase
  cases hphase

theorem Reads.exists_share {packets : PartyId → Packet} {place : Nat} {value : Element}
    (h : Reads (table.party i) (packets i) (fun q => some (packets q)) place value) :
    ∃ share : PartyId → Element,
      (∀ q < table.parties, (packets q).messages[place]? = some (share q).toBytes ∧
        (q ≠ i → table.modulus.Reduced (share q))) ∧
      value = ((table.party i).peers.map share).foldl table.modulus.add (share i) := by
  obtain ⟨share, hown, hpeers, rfl⟩ := h
  refine ⟨share, fun q hq => ?_, rfl⟩
  by_cases hne : q = i
  · subst hne
    exact ⟨hown, fun hne => absurd rfl hne⟩
  · obtain ⟨_, payload, hpacket, hpayload, hdecode⟩ := hpeers q (Table.mem_peers.mpr ⟨hq, hne⟩)
    cases hpacket
    obtain ⟨rfl, hlt⟩ := Modulus.decode_eq_ok_iff.mp hdecode
    exact ⟨hpayload, fun _ => Modulus.reduced_iff.mpr hlt⟩

/-- Values that two parties read from the same messages are the same. -/
theorem Reads.eq {packets packets' : PartyId → Packet} {place : Nat} {value value' : Element}
    (hsame : ∀ q < table.parties, packets q = packets' q)
    (h : Reads (table.party i) (packets i) (fun q => some (packets q)) place value)
    (h' : Reads (table.party j) (packets' j) (fun q => some (packets' q)) place value') :
    value = value' := by
  obtain ⟨share, hshare, rfl⟩ := h.exists_share
  obtain ⟨share', hshare', rfl⟩ := h'.exists_share
  have heq : ∀ q < table.parties, share q = share' q := by
    intro q hq
    have hmessage := (hshare' q hq).1
    rw [← hsame q hq, (hshare q hq).1] at hmessage
    exact Limbs.toBytes_inj.mp (Option.some.inj hmessage)
  have hmap : (table.party i).peers.map share = (table.party i).peers.map share' :=
    List.map_congr_left fun q hq => heq q (Table.mem_peers.mp hq).1
  rw [hmap, heq i i.isLt]
  by_cases hij : i = j
  · rw [hij]
  -- Each party has read the shares of all others, so all are reduced.
  have hreduced : ∀ q < table.parties, table.modulus.Reduced (share' q) := by
    intro q hq
    by_cases hqj : q = j
    · rw [← heq q hq]
      exact (hshare q hq).2 fun hqi => hij (Fin.ext (hqi.symm.trans hqj))
    · exact (hshare' q hq).2 hqj
  have hpeers : ∀ (i : Fin table.parties), ∀ value ∈ (table.party i).peers.map share',
      table.modulus.Reduced value := by
    intro i value hvalue
    obtain ⟨q, hq, rfl⟩ := List.mem_map.mp hvalue
    exact hreduced q (Table.mem_peers.mp hq).1
  have hsum : ∀ i : Fin table.parties, (share' i).toNat +
      (((table.party i).peers.map share').map Limbs.toNat).sum =
        ((List.range table.parties).map fun q => (share' q).toNat).sum := by
    intro i
    rw [List.map_map]
    exact (table.party i).sum_peers fun q => (share' q).toNat
  rw [← Limbs.toNat_inj, Modulus.toNat_foldl_add (hreduced i i.isLt) (hpeers i), hsum,
    Modulus.toNat_foldl_add (hreduced j j.isLt) (hpeers j), hsum]

/-- Parties that have made the same exchanges have opened and checked the same. -/
theorem EntriesOfExchanges.agree (h : EntriesOfExchanges (table.party i) exchanges entries pending)
    (h' : EntriesOfExchanges (table.party j) exchanges' entries' pending')
    (hsame : table.SamePackets exchanges exchanges') :
    entries = entries' ∧ pending = pending' := by
  have hzero : 0 < table.parties := Nat.lt_of_lt_of_le Nat.two_pos table.two_le
  induction h generalizing exchanges' entries' pending' with
  | nil =>
    have hnil : exchanges' = [] := List.map_eq_nil_iff.mp (hsame 0 hzero).symm
    cases h' with
    | nil => exact ⟨rfl, rfl⟩
    | batch _ packets => simp at hnil
    | check _ packets _ hlength =>
      rw [(List.append_eq_nil_iff.mp hnil).2] at hlength
      cases hlength
  | batch _ packets batch values hphase hreads ih =>
    cases h' with
    | nil => simpa using hsame 0 hzero
    | check _ packets' _ hlength hphase' =>
      exact (table.not_same (fun q hq => (hphase q hq).1) hlength hphase' hsame).elim
    | batch before' packets' batch' values' hphase' hreads' =>
      obtain ⟨hbefore, hlast⟩ := hsame.append_inj rfl
      obtain ⟨rfl, rfl⟩ := ih before' hbefore
      have hpackets : ∀ q < table.parties, packets q = packets' q := fun q hq => hlast.head hq
      obtain ⟨hnumber, hlength⟩ := hphase 0 hzero
      obtain ⟨hnumber', hlength'⟩ := hphase' 0 hzero
      rw [hpackets 0 hzero] at hnumber hlength
      cases hnumber.symm.trans hnumber'
      have hvalues : values = values' := by
        refine List.ext_getElem (hlength.symm.trans hlength') fun place hplace hplace' => ?_
        exact Reads.eq hpackets (hreads place _ (List.getElem?_eq_getElem hplace))
          (hreads' place _ (List.getElem?_eq_getElem hplace'))
      rw [hvalues]
      exact ⟨rfl, rfl⟩
  | check _ packets _ hlength hphase ih =>
    cases h' with
    | nil =>
      have hnil := List.map_eq_nil_iff.mp (hsame 0 hzero)
      rw [(List.append_eq_nil_iff.mp hnil).2] at hlength
      cases hlength
    | batch _ packets' _ _ hphase' =>
      exact (table.not_same (fun q hq => (hphase' q hq).1) hlength hphase hsame.symm).elim
    | check before' packets' _ hlength' =>
      obtain ⟨hbefore, -⟩ := hsame.append_inj (hlength.trans hlength'.symm)
      obtain ⟨rfl, rfl⟩ := ih before' hbefore
      exact ⟨rfl, rfl⟩

end Agreement

/-! ## Evaluations -/

def Terms.any : Terms Board := ⟨fun _ _ => True, fun _ => True, fun _ => True⟩

theorem Terms.any_suitsBatch {me : Party} {exchanges : List (PartyId → Packet)} {phase : Phase}
    {openings : List Opening} :
    Terms.any.SuitsBatch me exchanges phase openings (fun _ _ => True) fun _ => True where
  during _ _ _ _ := trivial
  interrupted _ _ := trivial
  fine _ _ _ _ _ _ _ := trivial
  encoding _ _ _ _ _ _ _ _ := trivial
  publish _ _ _ _ _ _ _ _ _ := trivial

theorem CircuitGate.sound_any (gate : CircuitGate) : gate.Sound (fun _ => True) Terms.any.fails := by
  cases gate with
  | opening | output => exact fun _ _ => trivial
  | compute => exact ⟨fun _ _ => trivial, fun _ _ _ _ => trivial⟩

/-- The exchanges so far tell what was opened and checked. -/
def EntriesFollowExchanges (me : Party) (now : List Move) (books : Books) : Prop :=
  ∃ exchanges, Exchanged me exchanges now ∧
    EntriesOfExchanges me exchanges (Chronicle.ofMoves now).entries books.records.length

theorem EntriesFollowExchanges.booksInvariant (me : Party) (config : Config)
    (gates : List CircuitGate) :
    BooksInvariant .any me config gates fun _ => EntriesFollowExchanges me where
  during _ := trivial
  abort _ := trivial
  idle {_ past _ event} hevent := by
    rintro ⟨exchanges, hexchanged, hentriesOf⟩
    refine ⟨exchanges, hexchanged.inner, ?_⟩
    rw [Chronicle.ofMoves_append]
    rcases event with _ | event
    · exact hentriesOf
    · cases event with
      | taken | verified => exact hentriesOf
      | evaluating | opened | checking | returned => cases hevent
  check {_ past books verifier} := by
    rintro ⟨exchanges, hexchanged, hentriesOf⟩ hrecords - hcheck
    have hfresh : Verifier.Fresh me verifier.check := hcheck ▸ Verifier.fresh_start hrecords
    refine hfresh.meets_execute.mono (fun _ _ => id) ?_ fun _ _ _ _ => id
    rintro _ now verifier' - ⟨random, values, htalk, hentries⟩
    refine ⟨_, hexchanged.inner.conversation htalk, ?_⟩
    rw [hentries, Chronicle.ofMoves_append]
    exact hentriesOf.check _ _ rfl fun packets hpackets q =>
      (List.mem_append.mp hpackets).elim (phase_of_mem_contributions · q)
        (phase_of_mem_contributions · q)
  batch {_ batch past books number desk} := by
    rintro ⟨exchanges, hexchanged, hentriesOf⟩ - hrecords - hrounds
    refine (Bench.meets_process_openings Terms.any_suitsBatch hexchanged
      (fun gate _ => gate.sound_any) trivial hrounds).mono_terms ?_
    rintro _ now bench ⟨made, new, hopens, hmade, hlined⟩
    refine ⟨exchanges ++ made, hmade, ?_⟩
    dsimp only
    rw [hlined.entries_eq, hlined.records_eq, hrecords]
    exact hentriesOf.opens hopens
  release h _ := h

/-- Whatever the transport does, when an evaluation returns, its exchanges tell what it has opened and
checked. -/
theorem Evaluator.exists_entriesOfExchanges {me : Party} {config : Config} {gates : List CircuitGate}
    {source : Source} {moves : List Move} {summary : Summary}
    {final : Evaluator Schedule CircuitGate Board}
    (hpath : Path ⟨evaluate (.standard me config) gates, start .start source .empty⟩ moves
      ⟨.pure summary, final⟩) :
    ∃ exchanges pending, Exchanged me exchanges moves ∧
      EntriesOfExchanges me exchanges (Chronicle.ofMoves moves).entries pending := by
  have hstart : EntriesFollowExchanges me [] (Evaluator.books (start Schedule.start source .empty)) :=
    ⟨[], exchanged_nil, .nil⟩
  have hmeets := (EntriesFollowExchanges.booksInvariant me config gates).meets_evaluate rfl rfl hstart
  obtain ⟨-, -, exchanges, hexchanged, hentriesOf⟩ := hmeets.path hpath fun _ _ => trivial
  exact ⟨exchanges, _, hexchanged, hentriesOf⟩

end AuthenticatedMpc
