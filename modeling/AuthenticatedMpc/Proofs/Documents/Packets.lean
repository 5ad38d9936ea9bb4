import AuthenticatedMpc.Proofs.Json.Documents
import AuthenticatedMpc.Proofs.Json.Members
import AuthenticatedMpc.Wire

/-!
# Packets on the wire

The text of a packet is read back as the packet. So is any other text of it: the fields of an object may
stand in any order and next to unknown ones, with any blanks and escapes. A document with a repeated or
missing field, with something else than a byte in a message or with a number beyond 64 bits is refused.
-/

namespace AuthenticatedMpc

/-! ## Records with one field -/

namespace Json

variable {key : String} {body value : Json}

theorem onlyField?_eq_some_iff :
    body.onlyField? key = some value ↔
      (∃ members, body = .object members ∧ hasTextKeys members = true ∧
        required? key members = some value) ∨ body = .array [value] := by
  unfold onlyField?
  split
  · next members =>
    rw [Option.ite_none_right_eq_some]
    simp
  · simp
  · next hobject harray =>
    simp only [reduceCtorEq, false_iff, not_or, not_exists, not_and]
    exact ⟨fun members hbody => absurd hbody (hobject members), harray value⟩

/-- The value of the field is the only one. -/
theorem eq_of_onlyField? {other : Json} (h : body.onlyField? key = some value)
    (hother : HasField [key] key other body) : other = value := by
  rcases onlyField?_eq_some_iff.mp h with ⟨members, rfl, -, hvalue⟩ | rfl
  · obtain ⟨hmem⟩ := hother
    exact eq_of_required? hvalue hmem
  · obtain _ | ⟨hkey, hitem⟩ := hother
    have hplace := (List.getElem?_eq_some_iff.mp hitem).1
    rw [List.length_singleton, Nat.lt_one_iff] at hplace
    rw [hplace] at hitem
    exact (Option.some.inj hitem).symm

/-! ## Lists and bytes -/

theorem mapM_map {α : Type} {read : Json → Option α} {write : α → Json}
    (h : ∀ x, read (write x) = some x) (xs : List α) : (xs.map write).mapM read = some xs := by
  induction xs with
  | nil => rfl
  | cons x xs ih => simp [h, ih]

theorem mapM_eq_none {α : Type} {read : Json → Option α} {items : List Json} {item : Json}
    (hitem : item ∈ items) (h : read item = none) : items.mapM read = none := by
  induction items with
  | nil => cases hitem
  | cons first items ih =>
    rcases List.mem_cons.mp hitem with rfl | hmem
    · simp [h]
    · simp [ih hmem]

theorem byte?_ofByte (byte : UInt8) : (ofByte byte).byte? = some byte := by
  rw [ofByte, byte?, naturalBelow?, if_pos byte.toNat_lt, Option.map_some, Nat.toUInt8_eq,
    UInt8.ofNat_toNat]

theorem byte?_eq_none (h : OutOfRange (2 ^ 8) value) : value.byte? = none := by
  rw [byte?, naturalBelow?_eq_none h, Option.map_none]

end Json

/-! ## Phases -/

namespace Phase

variable {phase : Phase} {json : Json}

def kinds : List (String × String) := [("Circuit", "batch"), ("MacCheck", "check")]

def kind : Phase → String
  | circuit _ => "Circuit"
  | macCheck _ => "MacCheck"

def numberKey : Phase → String
  | circuit _ => "batch"
  | macCheck _ => "check"

def number : Phase → UInt64
  | circuit batch => batch
  | macCheck check => check

/-- The documents of a phase: its kind is the only key of the outer object. -/
def Written (phase : Phase) (json : Json) : Prop :=
  ∃ members,
    Json.Lists [phase.numberKey] [(phase.numberKey, .natural phase.number.toNat)] members ∧
      json = .object [(some phase.kind, .object members)]

/-- The documents that miss being a phase: more or fewer keys than one, a number that is repeated or
missing, or one beyond 64 bits. -/
inductive Flawed : Json → Prop
  | keys {members : List (Option String × Json)} (h : members.length ≠ 1) : Flawed (.object members)
  | count {kind key : String} {members : List (Option String × Json)} (hkind : (kind, key) ∈ kinds)
      (h : (members.map Prod.fst).count (some key) ≠ 1) :
      Flawed (.object [(some kind, .object members)])
  | length {kind key : String} {items : List Json} (hkind : (kind, key) ∈ kinds)
      (h : items.length ≠ 1) : Flawed (.object [(some kind, .array items)])
  | number {kind key : String} {body value : Json} (hkind : (kind, key) ∈ kinds)
      (hvalue : Json.HasField [key] key value body) (h : Json.OutOfRange (2 ^ 64) value) :
      Flawed (.object [(some kind, body)])

theorem written_toJson (phase : Phase) : phase.Written phase.toJson := by
  cases phase <;> exact ⟨_, ⟨[], by simp, .refl _⟩, rfl⟩

theorem ofJson?_eq_some_iff :
    ofJson? json = some phase ↔
      ∃ body value, json = .object [(some phase.kind, body)] ∧
        body.onlyField? phase.numberKey = some value ∧ value.word? = some phase.number := by
  constructor
  · intro h
    unfold ofJson? at h
    split at h
    · next kind body =>
      split_ifs at h with hcircuit hcheck
      · obtain ⟨batch, hbatch, rfl⟩ := Option.map_eq_some_iff.mp h
        obtain ⟨value, hvalue, hword⟩ := Option.bind_eq_some_iff.mp hbatch
        exact ⟨body, value, by rw [hcircuit]; rfl, hvalue, hword⟩
      · obtain ⟨check, hcheck', rfl⟩ := Option.map_eq_some_iff.mp h
        obtain ⟨value, hvalue, hword⟩ := Option.bind_eq_some_iff.mp hcheck'
        exact ⟨body, value, by rw [hcheck]; rfl, hvalue, hword⟩
    · cases h
  · rintro ⟨body, value, rfl, hvalue, hword⟩
    cases phase <;>
      · simp only [numberKey, number] at hvalue hword
        simp [ofJson?, kind, hvalue, hword]

theorem ofJson?_of_written (h : phase.Written json) : ofJson? json = some phase := by
  obtain ⟨members, hlists, rfl⟩ := h
  have hvalue := hlists.required?_eq (List.mem_singleton_self _) (List.nodup_singleton _)
    (List.mem_singleton_self _)
  exact ofJson?_eq_some_iff.mpr ⟨_, _, rfl,
    Json.onlyField?_eq_some_iff.mpr (.inl ⟨_, rfl, hlists.hasTextKeys, hvalue⟩),
    Json.word?_natural _⟩

theorem numberKey_of_mem_kinds {key : String} (h : (phase.kind, key) ∈ kinds) :
    key = phase.numberKey := by
  cases phase <;> simpa [kinds, kind, numberKey] using h

theorem ofJson?_of_flawed (h : Flawed json) : ofJson? json = none := by
  rw [Option.eq_none_iff_forall_ne_some]
  intro phase hphase
  obtain ⟨body, value, hjson, hvalue, hword⟩ := ofJson?_eq_some_iff.mp hphase
  cases h with
  | keys hlength =>
    cases hjson
    exact hlength rfl
  | count hkind hcount =>
    cases hjson
    obtain rfl := numberKey_of_mem_kinds hkind
    rcases Json.onlyField?_eq_some_iff.mp hvalue with ⟨members, hmembers, -, hrequired⟩ | harray
    · cases hmembers
      rw [Json.required?_eq_none hcount] at hrequired
      cases hrequired
    · cases harray
  | length hkind hlength =>
    cases hjson
    rcases Json.onlyField?_eq_some_iff.mp hvalue with ⟨members, hmembers, -⟩ | harray
    · cases hmembers
    · cases harray
      exact hlength rfl
  | number hkind hother hrange =>
    cases hjson
    obtain rfl := numberKey_of_mem_kinds hkind
    rw [← Json.eq_of_onlyField? hvalue hother, Json.word?_eq_none hrange] at hword
    cases hword

theorem ofText?_of_spelledBy {text : String} (h : json.SpelledBy text) :
    ofText? text = ofJson? json := by
  rw [ofText?, Json.read?_eq_some_iff.mpr h, Option.bind_some]

theorem hasNumerals_toJson (phase : Phase) : Json.HasNumerals phase.toJson.tokens := by
  cases phase <;>
    exact Json.hasNumerals_object (List.forall_mem_singleton.mpr
      (Json.hasNumerals_object (List.forall_mem_singleton.mpr (Json.hasNumerals_natural _))))

theorem spelledBy_toText (phase : Phase) : phase.toJson.SpelledBy phase.toText :=
  Json.spelledBy_render phase.hasNumerals_toJson

theorem ofText?_toText (phase : Phase) : ofText? phase.toText = some phase := by
  rw [ofText?_of_spelledBy phase.spelledBy_toText]
  exact ofJson?_of_written phase.written_toJson

end Phase

/-! ## Packets -/

namespace Packet

variable {packet : Packet} {json : Json}

def keys : List String := ["phase", "messages"]

def messagesJson (messages : List Payload) : Json :=
  .array (messages.map fun message => .array (message.map .ofByte))

def Written (packet : Packet) (json : Json) : Prop :=
  ∃ phase members, packet.phase.Written phase ∧
    Json.Lists keys [("phase", phase), ("messages", messagesJson packet.messages)] members ∧
      json = .object members

/-- The documents that miss being a packet: a field that is repeated or missing, a flawed phase, or
something that is no byte in a message. -/
inductive Flawed : Json → Prop
  | count {key : String} {members : List (Option String × Json)} (hkey : key ∈ keys)
      (h : (members.map Prod.fst).count (some key) ≠ 1) : Flawed (.object members)
  | length {items : List Json} (h : items.length ≠ 2) : Flawed (.array items)
  | phase {json phase : Json} (hphase : Json.HasField keys "phase" phase json)
      (h : Phase.Flawed phase) : Flawed json
  | byte {json byte : Json} {items bytes : List Json}
      (hmessages : Json.HasField keys "messages" (.array items) json) (hbytes : .array bytes ∈ items)
      (hbyte : byte ∈ bytes) (h : Json.OutOfRange (2 ^ 8) byte) : Flawed json

theorem written_toJson (packet : Packet) : packet.Written packet.toJson :=
  ⟨_, _, packet.phase.written_toJson, ⟨[], by simp, .refl _⟩, rfl⟩

inductive Holds (phase messages : Json) : Json → Prop
  | object {members : List (Option String × Json)} (hphase : Json.required? "phase" members = some phase)
      (hmessages : Json.required? "messages" members = some messages) :
      Holds phase messages (.object members)
  | array : Holds phase messages (.array [phase, messages])

theorem exists_holds_of_ofJson? (h : ofJson? json = some packet) :
    ∃ phase messages, Holds phase messages json ∧ ofFields? phase messages = some packet := by
  unfold ofJson? at h
  split at h
  · next members =>
    split_ifs at h
    simp only [Option.bind_eq_bind, Option.bind_eq_some_iff] at h
    obtain ⟨phase, hphase, messages, hmessages, hfields⟩ := h
    exact ⟨phase, messages, .object hphase hmessages, hfields⟩
  · exact ⟨_, _, .array, h⟩
  · cases h

theorem Holds.eq_phase {phase messages other : Json} (h : Holds phase messages json)
    (hother : Json.HasField keys "phase" other json) : other = phase := by
  cases h with
  | object hphase =>
    obtain ⟨hmem⟩ := hother
    exact Json.eq_of_required? hphase hmem
  | array =>
    obtain _ | @⟨_, place, hkey, hitem⟩ := hother
    match place, hkey, hitem with
    | 0, _, hitem => exact (Option.some.inj hitem).symm
    | 1, hkey, _ => exact absurd hkey (by decide)

theorem Holds.eq_messages {phase messages other : Json} (h : Holds phase messages json)
    (hother : Json.HasField keys "messages" other json) : other = messages := by
  cases h with
  | object _ hmessages =>
    obtain ⟨hmem⟩ := hother
    exact Json.eq_of_required? hmessages hmem
  | array =>
    obtain _ | @⟨_, place, hkey, hitem⟩ := hother
    match place, hkey, hitem with
    | 0, hkey, _ => exact absurd hkey (by decide)
    | 1, _, hitem => exact (Option.some.inj hitem).symm

theorem Holds.count_eq_one {phase messages : Json} {members : List (Option String × Json)}
    {key : String} (h : Holds phase messages (.object members)) (hkey : key ∈ keys) :
    (members.map Prod.fst).count (some key) = 1 := by
  obtain ⟨hphase, hmessages⟩ := h
  by_contra hcount
  have hnone := Json.required?_eq_none hcount
  have hkeys : key = "phase" ∨ key = "messages" := by simpa [keys] using hkey
  rcases hkeys with rfl | rfl
  · cases hphase.symm.trans hnone
  · cases hmessages.symm.trans hnone

theorem ofFields?_eq_some_iff {phase messages : Json} :
    ofFields? phase messages = some packet ↔
      Phase.ofJson? phase = some packet.phase ∧
        ∃ items, messages = .array items ∧ items.mapM message? = some packet.messages := by
  constructor
  · intro h
    simp only [ofFields?, Option.bind_eq_bind, Option.bind_eq_some_iff, Option.pure_def,
      Option.some.injEq] at h
    obtain ⟨phase, hphase, items, hitems, messages, hmessages, rfl⟩ := h
    refine ⟨hphase, items, ?_, hmessages⟩
    unfold Json.asArray? at hitems
    split at hitems
    · cases hitems
      rfl
    · cases hitems
  · rintro ⟨hphase, items, rfl, hmessages⟩
    simp [ofFields?, hphase, Json.asArray?, hmessages]

theorem ofJson?_of_written (h : packet.Written json) : ofJson? json = some packet := by
  obtain ⟨phase, members, hphase, hlists, rfl⟩ := h
  have hnodup : (["phase", "messages"] : List String).Nodup := by decide
  have hfields : ofFields? phase (messagesJson packet.messages) = some packet := by
    refine ofFields?_eq_some_iff.mpr ⟨Phase.ofJson?_of_written hphase, _, rfl, ?_⟩
    exact Json.mapM_map (fun message => Json.mapM_map Json.byte?_ofByte message) packet.messages
  have hphase : Json.required? "phase" members = some phase :=
    hlists.required?_eq (by decide) hnodup (by simp)
  have hmessages : Json.required? "messages" members = some (messagesJson packet.messages) :=
    hlists.required?_eq (by decide) hnodup (by simp)
  simp [ofJson?, hlists.hasTextKeys, hphase, hmessages, hfields]

theorem ofJson?_of_flawed (h : Flawed json) : ofJson? json = none := by
  -- Every flaw contradicts what an accepted document is known to hold.
  rw [Option.eq_none_iff_forall_ne_some]
  intro packet hpacket
  obtain ⟨phase, messages, hholds, hfields⟩ := exists_holds_of_ofJson? hpacket
  obtain ⟨hphase, items, hitems, hmessages⟩ := ofFields?_eq_some_iff.mp hfields
  cases h with
  | count hkey hcount => exact hcount (hholds.count_eq_one hkey)
  | length hlength =>
    cases hholds
    exact hlength rfl
  | phase hfield hflawed =>
    rw [← hholds.eq_phase hfield, Phase.ofJson?_of_flawed hflawed] at hphase
    cases hphase
  | byte hfield hbytes hbyte hrange =>
    cases (hholds.eq_messages hfield).trans hitems
    have hmessage := Json.mapM_eq_none hbyte (Json.byte?_eq_none hrange)
    rw [Json.mapM_eq_none hbytes hmessage] at hmessages
    cases hmessages

theorem ofText?_of_spelledBy {text : String} (h : json.SpelledBy text) :
    ofText? text = ofJson? json := by
  rw [ofText?, Json.read?_eq_some_iff.mpr h, Option.bind_some]

theorem hasNumerals_toJson (packet : Packet) : Json.HasNumerals packet.toJson.tokens := by
  have hmessages : Json.HasNumerals (messagesJson packet.messages).tokens := by
    refine Json.hasNumerals_array fun item hitem => ?_
    obtain ⟨message, -, rfl⟩ := List.mem_map.mp hitem
    refine Json.hasNumerals_array fun item hitem => ?_
    obtain ⟨byte, -, rfl⟩ := List.mem_map.mp hitem
    exact Json.hasNumerals_natural _
  exact Json.hasNumerals_object (List.forall_mem_cons.mpr
    ⟨packet.phase.hasNumerals_toJson, List.forall_mem_singleton.mpr hmessages⟩)

theorem spelledBy_toText (packet : Packet) : packet.toJson.SpelledBy packet.toText :=
  Json.spelledBy_render packet.hasNumerals_toJson

theorem ofText?_toText (packet : Packet) : ofText? packet.toText = some packet := by
  rw [ofText?_of_spelledBy packet.spelledBy_toText]
  exact ofJson?_of_written packet.written_toJson

/-- Phases and packets are read back from what is written of them, which is one of their texts, so that
no two share one, and from every other text of theirs. The texts of flawed documents are refused. -/
theorem wire_roundTrip :
    (∀ phase : Phase, (∃ json, phase.Written json ∧ json.SpelledBy phase.toText) ∧
        Phase.ofText? phase.toText = some phase) ∧
      (∀ packet : Packet, (∃ json, packet.Written json ∧ json.SpelledBy packet.toText) ∧
        ofText? packet.toText = some packet) ∧
      Function.Injective Phase.toText ∧ Function.Injective toText ∧
      (∀ (phase : Phase) json text, phase.Written json → json.SpelledBy text →
        Phase.ofText? text = some phase) ∧
      (∀ (packet : Packet) json text, packet.Written json → json.SpelledBy text →
        ofText? text = some packet) ∧
      (∀ json text, Phase.Flawed json → json.SpelledBy text → Phase.ofText? text = none) ∧
      ∀ json text, Flawed json → json.SpelledBy text → ofText? text = none := by
  refine ⟨fun phase => ⟨⟨_, phase.written_toJson, phase.spelledBy_toText⟩, phase.ofText?_toText⟩,
    fun packet => ⟨⟨_, packet.written_toJson, packet.spelledBy_toText⟩, packet.ofText?_toText⟩,
    fun phase phase' h => ?_, fun packet packet' h => ?_, fun phase json text hwritten hspelled => ?_,
    fun packet json text hwritten hspelled => ?_, fun json text hflawed hspelled => ?_,
    fun json text hflawed hspelled => ?_⟩
  · exact Option.some.inj (phase.ofText?_toText.symm.trans (h ▸ phase'.ofText?_toText))
  · exact Option.some.inj (packet.ofText?_toText.symm.trans (h ▸ packet'.ofText?_toText))
  · rw [Phase.ofText?_of_spelledBy hspelled, Phase.ofJson?_of_written hwritten]
  · rw [ofText?_of_spelledBy hspelled, ofJson?_of_written hwritten]
  · rw [Phase.ofText?_of_spelledBy hspelled, Phase.ofJson?_of_flawed hflawed]
  · rw [ofText?_of_spelledBy hspelled, ofJson?_of_flawed hflawed]

/-- Fields in another order, blanks and an unknown key do not matter, but 256 is no byte. -/
theorem wire_roundTrip_shuffled :
    ofText? "\x7b\"messages\": [[0, 255], []], \"more\": null,
        \"phase\": \x7b\"Circuit\": \x7b\"batch\": 7\x7d\x7d\x7d" =
      some ⟨.circuit 7, [[0, 255], []]⟩ ∧
    ofText? "[\x7b\"Circuit\": [7]\x7d, [[256]]]" = none := by
  obtain ⟨-, -, -, -, -, hwritten, -, hflawed⟩ := wire_roundTrip
  constructor
  · have hfields : Written ⟨.circuit 7, [[0, 255], []]⟩
        (.object [(some "messages", messagesJson [[0, 255], []]), (some "more", .null),
          (some "phase", (Phase.circuit 7).toJson)]) := by
      refine ⟨_, _, Phase.written_toJson _, ⟨[("more", .null)], by decide, ?_⟩, rfl⟩
      exact (List.reverse_perm _).symm.trans (.cons _ (.swap _ _ _))
    exact hwritten _ _ _ hfields (Json.spelledBy_of_tokens (by decide +kernel))
  · have hmessages : Json.HasField keys "messages" (.array [.array [.natural 256]])
        (.array [.object [(some "Circuit", .array [.natural 7])], .array [.array [.natural 256]]]) :=
      @Json.HasField.item _ _ _ _ 1 rfl rfl
    have hbyte : Json.OutOfRange (2 ^ 8) (.natural 256) := by
      rintro n hn ⟨⟩
      exact absurd hn (by decide)
    exact hflawed _ _
      (.byte hmessages (List.mem_singleton_self _) (List.mem_singleton_self _) hbyte)
      (Json.spelledBy_of_tokens (by decide +kernel))

end Packet
end AuthenticatedMpc
