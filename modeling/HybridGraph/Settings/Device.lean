import HybridGraph.Json.Decode
import HybridGraph.Text.Chars
/-!
# Devices and builder choices

The device that engines are built for, the precisions a builder may select, and the capability
class of an engine.
-/

namespace HybridGraph

/-- The first entry of a table whose spellings hold a token, blanks and letter case aside. -/
def lookupToken {α : Type} (table : List (α × List String)) (token : String) : Option α :=
  (table.find? fun entry => entry.2.contains (Text.foldToken token)).map Prod.fst

/-! ## Precisions -/

/-- A kernel precision. -/
inductive Precision where
  | float | half | int8 | bool
deriving DecidableEq

namespace Precision

/-- Every precision, in the order in which precisions are sorted. -/
def all : List Precision := [.float, .half, .int8, .bool]

/-- The tag in stored records. -/
def tag : Precision → String
  | .float => "Float"
  | .half => "Half"
  | .int8 => "Int8"
  | .bool => "Bool"

/-- The precision of a tag. -/
def ofTag? (tag : String) : Option Precision := all.find? (·.tag == tag)

/-- Precisions in their order, each once. -/
def sorted (ps : List Precision) : List Precision := all.filter ps.contains

/-- The accepted spellings of each precision. -/
def spellings : List (Precision × List String) :=
  [ (.float, ["float", "float32", "f32", "fp32"]),
    (.half, ["half", "float16", "f16", "fp16"]),
    (.int8, ["char", "int8", "i8"]),
    (.bool, ["bool", "b"]) ]

/-- The number of a tag in byte records. -/
def index (p : Precision) : Nat := all.idxOf p

end Precision

/-! ## Kinds of devices -/

/-- A kind of device. -/
inductive DeviceType where
  | gpu | dla
deriving DecidableEq

namespace DeviceType

/-- Every kind. -/
def all : List DeviceType := [.gpu, .dla]

/-- The tag in stored records. -/
def tag : DeviceType → String
  | .gpu => "Gpu"
  | .dla => "Dla"

/-- The kind of a tag. -/
def ofTag? (tag : String) : Option DeviceType := all.find? (·.tag == tag)

/-- The accepted spellings of each kind. -/
def spellings : List (DeviceType × List String) := [(.gpu, ["gpu"]), (.dla, ["dla"])]

/-- The number of a tag in byte records. -/
def index (t : DeviceType) : Nat := all.idxOf t

end DeviceType

/-! ## Capabilities -/

/-- The capability class of an engine. -/
inductive Capability where
  | standard | safety | dlaStandalone
deriving DecidableEq

namespace Capability

/-- Every class. -/
def all : List Capability := [.standard, .safety, .dlaStandalone]

/-- The tag in stored records. -/
def tag : Capability → String
  | .standard => "Standard"
  | .safety => "Safety"
  | .dlaStandalone => "DlaStandalone"

/-- The class of a tag. -/
def ofTag? (tag : String) : Option Capability := all.find? (·.tag == tag)

/-- The accepted spellings of each class. -/
def spellings : List (Capability × List String) :=
  [ (.standard, ["standard", "default"]),
    (.safety, ["safety", "safe_gpu"]),
    (.dlaStandalone, ["dla_standalone", "safe_dla"]) ]

/-- The number of a tag in byte records. -/
def index (c : Capability) : Nat := all.idxOf c

end Capability

/-! ## Devices -/

/-- A target device. -/
structure Device where
  type : DeviceType := .gpu
  gpu : Nat := 0
  core : Nat := 0
  allowFallback : Bool := false
deriving DecidableEq

namespace Device

/-- The first graphics device. -/
def standard : Device := {}

/-- The spelling of a device in messages. -/
def text (d : Device) : String :=
  match d.type with
  | .gpu => s!"gpu:{d.gpu}"
  | .dla =>
    let fallback := if d.allowFallback then "on" else "off"
    s!"dla:{d.core} (gpu {d.gpu} fallback {fallback})"

/-- The record of a device. -/
def toJson (d : Device) : Json :=
  .object [("device_type", .string d.type.tag), ("gpu_id", .nat d.gpu), ("dla_core", .nat d.core),
    ("allow_gpu_fallback", .bool d.allowFallback)]

/-- Reads a device; every field may be left out. -/
def ofJson? (j : Json) : Option Device := do
  let r ← Json.record? ["device_type", "gpu_id", "dla_core", "allow_gpu_fallback"] j
  return {
    type := ← r.defaulted "device_type" .gpu (Json.unit? DeviceType.ofTag?)
    gpu := ← r.defaulted "gpu_id" 0 Json.index?
    core := ← r.defaulted "dla_core" 0 Json.index?
    allowFallback := ← r.defaulted "allow_gpu_fallback" false Json.bool? }

end Device

end HybridGraph
