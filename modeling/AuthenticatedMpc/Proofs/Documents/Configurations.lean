import AuthenticatedMpc.Config
import AuthenticatedMpc.Proofs.Json.Documents
import AuthenticatedMpc.Proofs.Json.Members
import Mathlib.Data.List.Nodup

/-!
# Configuration documents

A document chooses some of the four sizes, the others take their defaults, and the configuration is
accepted exactly if it is usable as a whole. So a small threshold alone is refused, since the default
batches exceed it.
-/

namespace AuthenticatedMpc
namespace Config

variable {config : Config} {chosen : ConfigField → Option UInt64} {json : Json} {text : String}

/-- The defaults, except for the sizes that are chosen. -/
def overriding (chosen : ConfigField → Option UInt64) : Config :=
  ofSizes fun field => (chosen field).getD (standard.get field)

/-- No size is zero and no batch exceeds the threshold. -/
def Usable (config : Config) : Prop :=
  (∀ field, config.get field ≠ 0) ∧ config.maxBatchSize ≤ config.macCheckThreshold

def keys : List String := ConfigField.all.map ConfigField.key

def chosenFields (chosen : ConfigField → Option UInt64) : List (String × Json) :=
  ConfigField.all.filterMap fun field =>
    (chosen field).map fun size => (field.key, .natural size.toNat)

/-- The documents that choose the given sizes: as an object in any order and next to unknown keys, or
as an array of the first ones. -/
inductive ChosenBy (chosen : ConfigField → Option UInt64) : Json → Prop
  | object {members : List (Option String × Json)}
      (h : Json.Lists keys (chosenFields chosen) members) : ChosenBy chosen (.object members)
  | array {sizes : List UInt64} (hlength : sizes.length ≤ 4)
      (h : ∀ (place : ℕ) field, ConfigField.all[place]? = some field →
        chosen field = sizes[place]?) :
      ChosenBy chosen (.array (sizes.map fun size => .natural size.toNat))

/-- The documents that choose no sizes: a field is repeated, or it is no natural number below the
bound, or there are more than four. -/
inductive Flawed : Json → Prop
  | repeated {field : ConfigField} {members : List (Option String × Json)}
      (h : 1 < (members.map Prod.fst).count (some field.key)) : Flawed (.object members)
  | length {items : List Json} (h : 4 < items.length) : Flawed (.array items)
  | size {field : ConfigField} {json value : Json} (hvalue : Json.HasField keys field.key value json)
      (h : Json.OutOfRange (2 ^ 64) value) : Flawed json

/-! ## Validation -/

theorem mem_all (field : ConfigField) : field ∈ ConfigField.all := by
  cases field <;> decide

theorem validate_eq_ok_iff : config.validate = .ok () ↔ config.Usable := by
  unfold validate Usable
  split
  · next field hfield =>
    have hzero := List.find?_some hfield
    simp only [reduceCtorEq, false_iff, not_and]
    exact fun hsizes => absurd (beq_iff_eq.mp hzero) (hsizes field)
  · next hnone =>
    have hsizes : ∀ field, config.get field ≠ 0 := by
      intro field
      simpa using List.find?_eq_none.mp hnone field (mem_all field)
    rw [and_iff_right hsizes]
    split_ifs with hexceeds
    · simp only [false_iff]
      exact UInt64.not_le.mpr hexceeds
    · simp only [true_iff]
      exact UInt64.not_lt.mp hexceeds

/-! ## Sizes of a document -/

theorem key_injective : Function.Injective ConfigField.key := by
  intro field field' h
  cases field <;> cases field' <;> first | rfl | exact absurd h (by decide)

theorem get_overriding (field : ConfigField) :
    (overriding chosen).get field = (chosen field).getD (standard.get field) := by
  cases field <;> rfl

/-- What is read are the four sizes, each from its own place. -/
theorem ofJson?_eq_some_iff :
    ofJson? json = some config ↔
      (∃ members, json = .object members ∧ Json.hasTextKeys members = true ∧
        ∀ field, sizeIn? members field = some (config.get field)) ∨
      ∃ items, json = .array items ∧ items.length ≤ 4 ∧
        ∀ (place : ℕ) field, ConfigField.all[place]? = some field →
          sizeAt? items place field = some (config.get field) := by
  constructor
  · intro h
    unfold ofJson? at h
    split at h
    · next members =>
      split_ifs at h with hkeys
      simp only [Option.bind_eq_bind, Option.bind_eq_some_iff, Option.pure_def,
        Option.some.injEq] at h
      obtain ⟨batch, hbatch, threshold, hthreshold, check, hcheck, chunk, hchunk, rfl⟩ := h
      refine .inl ⟨members, rfl, hkeys, fun field => ?_⟩
      cases field
      · exact hbatch
      · exact hthreshold
      · exact hcheck
      · exact hchunk
    · next items =>
      split_ifs at h with hlength
      simp only [Option.bind_eq_bind, Option.bind_eq_some_iff, Option.pure_def,
        Option.some.injEq] at h
      obtain ⟨batch, hbatch, threshold, hthreshold, check, hcheck, chunk, hchunk, rfl⟩ := h
      refine .inr ⟨items, rfl, hlength, fun place field hfield => ?_⟩
      match place with
      | 0 =>
        cases hfield
        exact hbatch
      | 1 =>
        cases hfield
        exact hthreshold
      | 2 =>
        cases hfield
        exact hcheck
      | 3 =>
        cases hfield
        exact hchunk
    · cases h
  · rintro (⟨members, rfl, hkeys, hsizes⟩ | ⟨items, rfl, hlength, hsizes⟩)
    · simp only [ofJson?, hkeys, hsizes]
      rfl
    · simp only [ofJson?, hlength, hsizes 0 _ rfl, hsizes 1 _ rfl, hsizes 2 _ rfl, hsizes 3 _ rfl]
      rfl

theorem nodup_chosenFields : ((chosenFields chosen).map Prod.fst).Nodup := by
  rw [chosenFields, List.map_filterMap]
  refine List.Nodup.filterMap (fun field field' key hkey hkey' => key_injective ?_) (by decide)
  simp only [Option.map_map, Option.mem_def, Option.map_eq_some_iff] at hkey hkey'
  obtain ⟨_, -, rfl⟩ := hkey
  obtain ⟨_, -, heq⟩ := hkey'
  exact heq.symm

theorem sizeIn?_of_lists {members : List (Option String × Json)}
    (h : Json.Lists keys (chosenFields chosen) members) (field : ConfigField) :
    sizeIn? members field = some ((chosen field).getD (standard.get field)) := by
  have hkey : field.key ∈ keys := List.mem_map_of_mem (mem_all field)
  unfold sizeIn?
  cases hchosen : chosen field with
  | none =>
    have hmissing : field.key ∉ (chosenFields chosen).map Prod.fst := by
      intro hmem
      obtain ⟨_, hmem, hkey⟩ := List.mem_map.mp hmem
      obtain ⟨other, -, hother⟩ := List.mem_filterMap.mp hmem
      obtain ⟨size, hsize, rfl⟩ := Option.map_eq_some_iff.mp hother
      rw [key_injective hkey, hchosen] at hsize
      cases hsize
    rw [h.valuesOf_eq_nil hkey hmissing]
    rfl
  | some size =>
    have hmem : (field.key, .natural size.toNat) ∈ chosenFields chosen :=
      List.mem_filterMap.mpr ⟨field, mem_all field, by rw [hchosen, Option.map_some]⟩
    rw [h.valuesOf_eq hkey nodup_chosenFields hmem]
    exact Json.word?_natural size

theorem ofJson?_of_chosenBy (h : ChosenBy chosen json) : ofJson? json = some (overriding chosen) := by
  rw [ofJson?_eq_some_iff]
  cases h with
  | object hlists =>
    refine .inl ⟨_, rfl, hlists.hasTextKeys, fun field => ?_⟩
    rw [sizeIn?_of_lists hlists, get_overriding]
  | @array sizes hlength hplaces =>
    refine .inr ⟨_, rfl, by rwa [List.length_map], fun place field hfield => ?_⟩
    rw [get_overriding, hplaces place field hfield, sizeAt?, List.getElem?_map]
    cases sizes[place]? with
    | none => rfl
    | some size => exact Json.word?_natural size

theorem valuesOf_of_sizeIn? {members : List (Option String × Json)} {field : ConfigField}
    {size : UInt64} (h : sizeIn? members field = some size) :
    Json.valuesOf field.key members = [] ∨
      ∃ value, Json.valuesOf field.key members = [value] ∧ value.word? = some size := by
  unfold sizeIn? at h
  split at h
  · next hnil => exact .inl hnil
  · next value hone => exact .inr ⟨value, hone, h⟩
  · cases h

theorem ofJson?_of_flawed (h : Flawed json) : ofJson? json = none := by
  rw [Option.eq_none_iff_forall_ne_some]
  intro config hconfig
  rcases ofJson?_eq_some_iff.mp hconfig with
    ⟨members, rfl, -, hsizes⟩ | ⟨items, rfl, hlength, hsizes⟩
  · cases h with
    | @repeated field _ hcount =>
      rw [← Json.length_valuesOf] at hcount
      rcases valuesOf_of_sizeIn? (hsizes field) with hnil | ⟨value, hone, -⟩
      · simp [hnil] at hcount
      · simp [hone] at hcount
    | @size field _ value hvalue hrange =>
      obtain ⟨hmem⟩ := hvalue
      have hmem := Json.mem_valuesOf_iff.mpr hmem
      rcases valuesOf_of_sizeIn? (hsizes field) with hnil | ⟨other, hone, hword⟩
      · rw [hnil] at hmem
        cases hmem
      · rw [hone, List.mem_singleton] at hmem
        rw [← hmem, Json.word?_eq_none hrange] at hword
        cases hword
  · cases h with
    | length hlong => omega
    | @size field _ value hvalue hrange =>
      obtain _ | @⟨_, place, hkey, hitem⟩ := hvalue
      rw [keys, List.getElem?_map, Option.map_eq_some_iff] at hkey
      obtain ⟨other, hother, hkey⟩ := hkey
      have hsize := hsizes place other hother
      rw [sizeAt?, hitem] at hsize
      exact absurd hsize (by simp [Json.word?_eq_none hrange])

/-! ## Texts -/

theorem ofText_eq_ok_iff (h : json.SpelledBy text) :
    ofText text = .ok config ↔ ofJson? json = some config ∧ config.Usable := by
  rw [← validate_eq_ok_iff, ofText, Json.read?_eq_some_iff.mpr h, Option.bind_some]
  cases hread : ofJson? json with
  | none => simp
  | some other =>
    dsimp only
    cases hvalidate : other.validate with
    | error error =>
      simp only [reduceCtorEq, false_iff, not_and, Option.some.injEq]
      rintro rfl
      simp [hvalidate]
    | ok =>
      simp only [Except.ok.injEq, Option.some.injEq]
      constructor
      · rintro rfl
        exact ⟨rfl, hvalidate⟩
      · exact And.left

theorem ofText_of_flawed (h : json.SpelledBy text) (hflawed : Flawed json) :
    ofText text = .error .malformed := by
  rw [ofText, Json.read?_eq_some_iff.mpr h, Option.bind_some, ofJson?_of_flawed hflawed]

theorem chosenBy_toJson (config : Config) :
    ChosenBy (fun field => some (config.get field)) config.toJson :=
  .object ⟨[], by simp, .refl _⟩

theorem hasNumerals_toJson (config : Config) : Json.HasNumerals config.toJson.tokens := by
  refine Json.hasNumerals_object fun member hmember => ?_
  obtain ⟨field, -, rfl⟩ := List.mem_map.mp hmember
  exact Json.hasNumerals_natural _

theorem spelledBy_toText (config : Config) : config.toJson.SpelledBy config.toText :=
  Json.spelledBy_render config.hasNumerals_toJson

theorem ofText_toText (h : config.validate = .ok ()) : ofText config.toText = .ok config := by
  rw [ofText_eq_ok_iff config.spelledBy_toText]
  exact ⟨ofJson?_of_chosenBy config.chosenBy_toJson, validate_eq_ok_iff.mp h⟩

/-- A document that chooses sizes is read as the defaults with these, if that configuration is usable,
and it is refused otherwise. Flawed documents are refused. What is written of a configuration chooses
all of its sizes, and it is read back if the configuration is valid, that is usable. -/
theorem ofText_exact :
    (∀ chosen json text, ChosenBy chosen json → json.SpelledBy text →
        ∀ config, ofText text = .ok config ↔ config = overriding chosen ∧ config.Usable) ∧
      (∀ json text, Flawed json → json.SpelledBy text → ofText text = .error .malformed) ∧
      ∀ config : Config,
        (∃ json, ChosenBy (fun field => some (config.get field)) json ∧
          json.SpelledBy config.toText) ∧
        (config.validate = .ok () ↔ config.Usable) ∧
        (config.validate = .ok () → ofText config.toText = .ok config) := by
  refine ⟨fun chosen json text hchosen hspelled config => ?_,
    fun json text hflawed hspelled => ofText_of_flawed hspelled hflawed, fun config =>
    ⟨⟨_, config.chosenBy_toJson, config.spelledBy_toText⟩, validate_eq_ok_iff, ofText_toText⟩⟩
  rw [ofText_eq_ok_iff hspelled, ofJson?_of_chosenBy hchosen, Option.some.injEq, eq_comm]

/-- Small batches alone are fine, a small threshold alone is not, and sizes are not negative. -/
theorem ofText_exact_partial :
    ofText "\x7b\"more\": [-1.5], \"max_batch_size\": 16\x7d " =
        .ok { standard with maxBatchSize := 16 } ∧
      (∀ config, ofText "\x7b\"mac_check_threshold\": 5\x7d" ≠ .ok config) ∧
      ofText "[16, -1]" = .error .malformed ∧ ofText standard.toText = .ok standard := by
  obtain ⟨hchosen, hflawed, htext⟩ := ofText_exact
  refine ⟨?_, fun config hconfig => ?_, ?_, (htext standard).2.2 (by decide)⟩
  · have hlists : ChosenBy (Function.update (fun _ => none) .maxBatchSize (some 16))
        (.object [(some "more", .array [.numeral "-1.5"]), (some "max_batch_size", .natural 16)]) :=
      .object ⟨[("more", .array [.numeral "-1.5"])], by decide, .swap _ _ _⟩
    refine (hchosen _ _ _ hlists (Json.spelledBy_of_tokens (by decide +kernel)) _).mpr ?_
    refine ⟨by decide, fun field => ?_, by decide⟩
    cases field <;> decide
  · have hlists : ChosenBy (Function.update (fun _ => none) .macCheckThreshold (some 5))
        (.object [(some "mac_check_threshold", .natural 5)]) :=
      .object ⟨[], by decide, .refl _⟩
    obtain ⟨rfl, -, hbatch⟩ :=
      (hchosen _ _ _ hlists (Json.spelledBy_of_tokens (by decide +kernel)) _).mp hconfig
    exact absurd hbatch (by decide)
  · have hsize : Json.HasField keys ConfigField.macCheckThreshold.key (.numeral "-1")
        (.array [.natural 16, .numeral "-1"]) :=
      @Json.HasField.item _ _ _ _ 1 rfl rfl
    refine hflawed _ _ (.size hsize ?_) (Json.spelledBy_of_tokens (by decide +kernel))
    rintro n - ⟨⟩

end Config
end AuthenticatedMpc
