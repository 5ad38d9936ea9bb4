import AuthenticatedMpc.Error
import AuthenticatedMpc.Json.Reader

/-!
# Configuration of an evaluation

Four sizes bound the batches and the MAC checks. A document gives them as an object, where missing
sizes take their defaults and unknown keys are ignored, or as an array in declaration order.
-/

namespace AuthenticatedMpc

/-- The sizes of batches and MAC checks. All parties must use the same ones, since they derive the
schedule of checks from them. -/
structure Config where
  /-- The most circuit gates in a batch. -/
  maxBatchSize : UInt64 := 4096
  /-- The number of gates after which a check is forced. -/
  macCheckThreshold : UInt64 := 100000
  /-- The most MAC check gates evaluated together. -/
  macCheckBatchSize : UInt64 := 128
  /-- The most records folded by one gate of a check. -/
  accumulateChunkSize : UInt64 := 1024
deriving DecidableEq, Repr

namespace Config

instance : Inhabited Config := ⟨⟨4096, 100000, 128, 1024⟩⟩

def standard : Config where

def get (config : Config) : ConfigField → UInt64
  | .maxBatchSize => config.maxBatchSize
  | .macCheckThreshold => config.macCheckThreshold
  | .macCheckBatchSize => config.macCheckBatchSize
  | .accumulateChunkSize => config.accumulateChunkSize

def ofSizes (size : ConfigField → UInt64) : Config where
  maxBatchSize := size .maxBatchSize
  macCheckThreshold := size .macCheckThreshold
  macCheckBatchSize := size .macCheckBatchSize
  accumulateChunkSize := size .accumulateChunkSize

/-- Refuses the first size that is zero, then batches larger than the threshold: those would not
bound the number of unverified values. -/
def validate (config : Config) : Except ConfigError Unit :=
  match ConfigField.all.find? fun field => config.get field == 0 with
  | some field => .error (.zeroSize field)
  | none =>
    if config.macCheckThreshold < config.maxBatchSize then
      .error (.batchExceedsThreshold config.maxBatchSize config.macCheckThreshold)
    else .ok ()

/-! ## Documents -/

def toJson (config : Config) : Json :=
  .object (ConfigField.all.map fun field =>
    (some field.key, .natural (config.get field).toNat))

/-- The size under a key of an object: its default if the key is missing, no size if it stands there
twice. -/
def sizeIn? (members : List (Option String × Json)) (field : ConfigField) : Option UInt64 :=
  match Json.valuesOf field.key members with
  | [] => some (standard.get field)
  | [value] => value.word?
  | _ => none

/-- The size at a place of an array, or its default beyond the end. -/
def sizeAt? (items : List Json) (place : Nat) (field : ConfigField) : Option UInt64 :=
  match items[place]? with
  | none => some (standard.get field)
  | some value => value.word?

def ofJson? : Json → Option Config
  | .object members =>
    if Json.hasTextKeys members then do
      let maxBatchSize ← sizeIn? members .maxBatchSize
      let macCheckThreshold ← sizeIn? members .macCheckThreshold
      let macCheckBatchSize ← sizeIn? members .macCheckBatchSize
      let accumulateChunkSize ← sizeIn? members .accumulateChunkSize
      pure ⟨maxBatchSize, macCheckThreshold, macCheckBatchSize, accumulateChunkSize⟩
    else none
  | .array items =>
    if items.length ≤ 4 then do
      let maxBatchSize ← sizeAt? items 0 .maxBatchSize
      let macCheckThreshold ← sizeAt? items 1 .macCheckThreshold
      let macCheckBatchSize ← sizeAt? items 2 .macCheckBatchSize
      let accumulateChunkSize ← sizeAt? items 3 .accumulateChunkSize
      pure ⟨maxBatchSize, macCheckThreshold, macCheckBatchSize, accumulateChunkSize⟩
    else none
  | _ => none

def ofText (text : String) : Except ConfigError Config :=
  match (Json.read? text).bind ofJson? with
  | none => .error .malformed
  | some config =>
    match config.validate with
    | .error error => .error error
    | .ok () => .ok config

def toText (config : Config) : String := config.toJson.render

end Config
end AuthenticatedMpc
