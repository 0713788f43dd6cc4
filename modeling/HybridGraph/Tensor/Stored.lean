import HybridGraph.Json.Decode
import HybridGraph.Tensor.Basic
import HybridGraph.Tensor.InputSpec
import HybridGraph.Tensor.ValueType
/-!
# Tensors and types as stored records

Every type of this folder has a JSON form: `toJson` writes it and `ofJson?` reads it.  Reading a
tensor keeps whatever stands in the record; use `Tensor.make` where elements must fit.
-/

namespace HybridGraph

/-! ## Element types, layouts and shapes -/

/-- The record of an element type. -/
def DType.toJson (t : DType) : Json := .string t.tag

/-- Reads an element type. -/
def DType.ofJson? : Json → Option DType := Json.unit? DType.ofTag?

/-- The record of a layout. -/
def TensorFormat.toJson (f : TensorFormat) : Json := .string f.tag

/-- Reads a layout. -/
def TensorFormat.ofJson? : Json → Option TensorFormat := Json.unit? TensorFormat.ofTag?

/-- The record of an extent. -/
def Dimension.toJson : Dimension → Json
  | .fixed n => .tagged "Static" (.nat n)
  | .dynamic => .string "Dynamic"

/-- Reads an extent. -/
def Dimension.ofJson? (j : Json) : Option Dimension :=
  match Json.variant? j with
  | some ("Static", some payload) => payload.size?.map .fixed
  | some ("Dynamic", none) | some ("Dynamic", some .null) => some .dynamic
  | _ => none

/-- Reads extents. -/
def extents? : Json → Option (List Nat) := Json.list? Json.size?

/-- The record of a shape contract. -/
def ShapeSpec.toJson : ShapeSpec → Json
  | .fixed dims => .tagged "Static" (.nats dims)
  | .ranged lo mid hi =>
    .tagged "Dynamic" (.object [("min", .nats lo), ("opt", .nats mid), ("max", .nats hi)])

/-- Reads a shape contract; the order of its extents is not checked. -/
def ShapeSpec.ofJson? (j : Json) : Option ShapeSpec := do
  match ← Json.variant? j with
  | ("Static", some payload) => return .fixed (← extents? payload)
  | ("Dynamic", some payload) =>
    let r ← Json.record? ["min", "opt", "max"] payload
    return .ranged (← r.required "min" extents?) (← r.required "opt" extents?)
      (← r.required "max" extents?)
  | _ => none

/-- The record of an input contract. -/
def InputSpec.toJson (spec : InputSpec) : Json :=
  .object [("shape", spec.shape.toJson), ("dtype", spec.dtype.toJson),
    ("format", spec.format.toJson)]

/-- Reads an input contract. -/
def InputSpec.ofJson? (j : Json) : Option InputSpec := do
  let r ← Json.record? ["shape", "dtype", "format"] j
  return {
    shape := ← r.required "shape" ShapeSpec.ofJson?
    dtype := ← r.defaulted "dtype" .f32 DType.ofJson?
    format := ← r.defaulted "format" .contiguous TensorFormat.ofJson? }

/-! ## Types of values -/

/-- The record of a tensor type. -/
def TensorType.toJson (t : TensorType) : Json :=
  .object [("dtype", .option DType.toJson t.dtype),
    ("shape", .option (.list Dimension.toJson) t.shape)]

/-- Reads a tensor type. -/
def TensorType.ofJson? (j : Json) : Option TensorType := do
  let r ← Json.record? ["dtype", "shape"] j
  return {
    dtype := ← r.optional "dtype" DType.ofJson?
    shape := ← r.optional "shape" (Json.list? Dimension.ofJson?) }

/-- The record of a type. -/
def ValueType.toJson : ValueType → Json
  | .tensor t => .tagged "Tensor" t.toJson
  | .scalar kind => .tagged "Scalar" (.string kind.tag)
  | .list kind => .tagged "List" (.string kind.tag)

/-- Reads a type. -/
def ValueType.ofJson? (j : Json) : Option ValueType := do
  match ← Json.variant? j with
  | ("Tensor", some payload) => return .tensor (← TensorType.ofJson? payload)
  | ("Scalar", some payload) => return .scalar (← Json.unit? ScalarKind.ofTag? payload)
  | ("List", some payload) => return .list (← Json.unit? ScalarKind.ofTag? payload)
  | _ => none

/-! ## Tensors -/

/-- The record of elements. -/
def Elements.toJson : Elements → Json
  | .f32 v => .tagged "F32" (.list .single v.toList)
  | .f64 v => .tagged "F64" (.list .double v.toList)
  | .i32 v => .tagged "I32" (.list (fun n => .int n.toInt) v.toList)
  | .i64 v => .tagged "I64" (.list (fun n => .int n.toInt) v.toList)
  | .bool v => .tagged "Bool" (.list (fun n => .nat n.toNat) v.toList)

/-- Reads elements. -/
def Elements.ofJson? (j : Json) : Option Elements := do
  match ← Json.variant? j with
  | ("F32", some payload) => return .f32 (← Json.list? Json.single? payload).toArray
  | ("F64", some payload) => return .f64 (← Json.list? Json.double? payload).toArray
  | ("I32", some payload) =>
    return .i32 ((← Json.list? (Json.int? 32) payload).map Int32.ofInt).toArray
  | ("I64", some payload) =>
    return .i64 ((← Json.list? (Json.int? 64) payload).map Int64.ofInt).toArray
  | ("Bool", some payload) => return .bool (← Json.list? Json.byte? payload).toArray
  | _ => none

/-- The record of a tensor. -/
def Tensor.toJson (t : Tensor) : Json :=
  .object [("dtype", t.dtype.toJson), ("dims", .nats t.dims), ("data", t.data.toJson)]

/-- Reads a tensor. -/
def Tensor.ofJson? (j : Json) : Option Tensor := do
  let r ← Json.record? ["dtype", "dims", "data"] j
  return {
    dtype := ← r.required "dtype" DType.ofJson?
    dims := ← r.required "dims" extents?
    data := ← r.required "data" Elements.ofJson? }

end HybridGraph
