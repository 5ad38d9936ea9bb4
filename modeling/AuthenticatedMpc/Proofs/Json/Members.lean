import AuthenticatedMpc.Json.Basic
import Mathlib.Algebra.Group.Nat.Defs
import Mathlib.Data.List.Nodup
import Mathlib.Data.List.Perm.Basic
import Mathlib.Data.Nat.Notation

/-!
# Fields of a document

A record is given as an object of its fields, in any order and next to members with other keys, or as
an array of them. What is looked up under a key depends on the members with that key alone.
-/

namespace AuthenticatedMpc
namespace Json

variable {known : List String} {fields : List (String × Json)}
  {members : List (Option String × Json)} {key : String} {value : Json}

/-- The members are the fields, once each and in any order, and others that have no known key. -/
def Lists (known : List String) (fields : List (String × Json))
    (members : List (Option String × Json)) : Prop :=
  ∃ others : List (String × Json), (∀ other ∈ others, other.1 ∉ known) ∧
    members.Perm ((fields ++ others).map fun member => (some member.1, member.2))

/-- A field is a member of an object, or stands in an array at the place of its key. -/
inductive HasField (keys : List String) (key : String) (value : Json) : Json → Prop
  | member {members : List (Option String × Json)} (h : (some key, value) ∈ members) :
      HasField keys key value (.object members)
  | item {items : List Json} {place : ℕ} (hkey : keys[place]? = some key)
      (hitem : items[place]? = some value) : HasField keys key value (.array items)

/-- A document that is no natural number below the bound. -/
def OutOfRange (bound : ℕ) (json : Json) : Prop := ∀ n < bound, json ≠ .natural n

/-! ## Values under a key -/

theorem mem_valuesOf_iff : value ∈ valuesOf key members ↔ (some key, value) ∈ members := by
  simp [valuesOf]

theorem length_valuesOf :
    (valuesOf key members).length = (members.map Prod.fst).count (some key) := by
  rw [valuesOf, List.length_map, List.count_eq_countP, List.countP_map, List.countP_eq_length_filter]
  rfl

theorem Lists.hasTextKeys (h : Lists known fields members) : hasTextKeys members = true := by
  obtain ⟨others, -, hperm⟩ := h
  rw [Json.hasTextKeys, List.all_eq_true]
  intro member hmember
  obtain ⟨member, -, rfl⟩ := List.mem_map.mp (hperm.mem_iff.mp hmember)
  rfl

theorem filter_eq_nil (h : key ∉ fields.map Prod.fst) :
    fields.filter (fun field => field.1 == key) = [] := by
  rw [List.filter_eq_nil_iff]
  intro field hfield heq
  exact h (beq_iff_eq.mp heq ▸ List.mem_map_of_mem hfield)

theorem filter_eq_singleton (hnodup : (fields.map Prod.fst).Nodup) (hfield : (key, value) ∈ fields) :
    fields.filter (fun field => field.1 == key) = [(key, value)] := by
  induction fields with
  | nil => cases hfield
  | cons field fields ih =>
    rw [List.map_cons, List.nodup_cons] at hnodup
    obtain ⟨hhead, htail⟩ := hnodup
    rcases List.mem_cons.mp hfield with rfl | hmem
    · rw [List.filter_cons_of_pos (by simp), filter_eq_nil hhead]
    · have hne : field.1 ≠ key := fun heq => hhead (heq ▸ List.mem_map_of_mem hmem)
      rw [List.filter_cons_of_neg (by simpa using hne), ih htail hmem]

/-- The values under a known key are those of the fields. -/
theorem Lists.valuesOf_perm (h : Lists known fields members) (hkey : key ∈ known) :
    (valuesOf key members).Perm ((fields.filter fun field => field.1 == key).map Prod.snd) := by
  obtain ⟨others, hothers, hperm⟩ := h
  -- The unknown members have other keys, so that filtering leaves none of them.
  have hnone : others.filter (fun field => field.1 == key) = [] := by
    refine filter_eq_nil fun hmem => ?_
    obtain ⟨other, hother, rfl⟩ := List.mem_map.mp hmem
    exact hothers other hother hkey
  have hfilter : (fields ++ others).filter
      ((fun member : Option String × Json => member.1 == some key) ∘
        fun member => (some member.1, member.2)) = fields.filter fun field => field.1 == key := by
    rw [List.filter_append]
    simpa [Function.comp_def] using hnone
  have hvalues := (hperm.filter fun member => member.1 == some key).map Prod.snd
  rwa [List.filter_map, List.map_map, hfilter] at hvalues

theorem Lists.valuesOf_eq (h : Lists known fields members) (hkey : key ∈ known)
    (hnodup : (fields.map Prod.fst).Nodup) (hfield : (key, value) ∈ fields) :
    valuesOf key members = [value] := by
  have hperm := h.valuesOf_perm hkey
  rw [filter_eq_singleton hnodup hfield] at hperm
  exact List.perm_singleton.mp hperm

theorem Lists.valuesOf_eq_nil (h : Lists known fields members) (hkey : key ∈ known)
    (hfield : key ∉ fields.map Prod.fst) : valuesOf key members = [] := by
  have hperm := h.valuesOf_perm hkey
  rw [filter_eq_nil hfield] at hperm
  exact hperm.eq_nil

/-! ## Required fields -/

theorem Lists.required?_eq (h : Lists known fields members) (hkey : key ∈ known)
    (hnodup : (fields.map Prod.fst).Nodup) (hfield : (key, value) ∈ fields) :
    required? key members = some value := by
  rw [required?, h.valuesOf_eq hkey hnodup hfield]

theorem required?_eq_none (h : (members.map Prod.fst).count (some key) ≠ 1) :
    required? key members = none := by
  rw [← length_valuesOf] at h
  unfold required?
  split
  · next heq =>
    rw [heq] at h
    exact absurd rfl h
  · rfl

theorem eq_of_required? {other : Json} (h : required? key members = some value)
    (hmem : (some key, other) ∈ members) : other = value := by
  unfold required? at h
  split at h
  · next heq =>
    cases h
    rw [← mem_valuesOf_iff, heq] at hmem
    exact List.mem_singleton.mp hmem
  · cases h

/-! ## Bounded numbers -/

theorem naturalBelow?_eq_none {bound : ℕ} (h : OutOfRange bound value) :
    value.naturalBelow? bound = none := by
  unfold naturalBelow?
  split
  · next n => exact if_neg fun hlt => h n hlt rfl
  · rfl

theorem word?_natural (word : UInt64) : (natural word.toNat).word? = some word := by
  rw [word?, naturalBelow?, if_pos word.toNat_lt, Option.map_some, Nat.toUInt64_eq,
    UInt64.ofNat_toNat]

theorem word?_eq_none (h : OutOfRange (2 ^ 64) value) : value.word? = none := by
  rw [word?, naturalBelow?_eq_none h, Option.map_none]

end Json
end AuthenticatedMpc
