import HybridGraph.Number.Binary
import HybridGraph.Tensor.DType
import HybridGraph.Tensor.Shape
/-!
# Tensors

A tensor is an element type, extents and its elements in row-major order.  Halves are kept as
singles that the 16-bit format can hold, bytes as 32-bit integers in the byte range, truth values as
0 and 1.  `Tensor.WellFormed` says that storage, element count and element ranges fit the element
type; every way of making a tensor from numbers keeps it.
-/

namespace HybridGraph

/-- The elements of a tensor. -/
inductive Elements where
  | f32 (values : Array Float32)
  | f64 (values : Array Float)
  | i32 (values : Array Int32)
  | i64 (values : Array Int64)
  | bool (values : Array UInt8)

namespace Elements

/-- Number of elements. -/
def size : Elements → Nat
  | .f32 v => v.size
  | .f64 v => v.size
  | .i32 v => v.size
  | .i64 v => v.size
  | .bool v => v.size

/-- The name of the storage. -/
def name : Elements → String
  | .f32 _ => "f32"
  | .f64 _ => "f64"
  | .i32 _ => "i32"
  | .i64 _ => "i64"
  | .bool _ => "bool"

/-- Whether the storage is the one for elements of the given type. -/
def fits : Elements → DType → Bool
  | .f32 _, .f32 | .f32 _, .f16 => true
  | .f64 _, .f64 => true
  | .i32 _, .i32 | .i32 _, .i8 => true
  | .i64 _, .i64 => true
  | .bool _, .bool => true
  | _, _ => false

end Elements

/-- Why elements and extents do not make a tensor. -/
inductive TensorError where
  | elementCount (dims : List Nat) (expected actual : Nat)
  | storage (dtype : DType) (held : String)
  | reshape (source target : List Nat)

/-- The wording of a refused tensor. -/
def TensorError.message : TensorError → String
  | .elementCount dims expected actual =>
    s!"tensor data holds {actual} elements but dims {Text.natList dims} need {expected}"
  | .storage dtype held => s!"dtype {dtype.name} cannot be stored in {held} storage"
  | .reshape source target => s!"cannot reshape {Text.natList source} into {Text.natList target}"

/-- A dense tensor. -/
structure Tensor where
  dtype : DType
  dims : List Nat
  data : Elements

namespace Tensor

/-- Number of axes. -/
def rank (t : Tensor) : Nat := t.dims.length

/-- Number of stored elements. -/
def size (t : Tensor) : Nat := t.data.size

/-- The elements lie in the range of the element type. -/
def InRange (dtype : DType) : Elements → Prop
  | .i32 values => dtype = .i8 → ∀ v ∈ values, -128 ≤ v.toInt ∧ v.toInt ≤ 127
  | .bool values => ∀ v ∈ values, v = 0 ∨ v = 1
  | _ => True

/-- Storage, number of elements and their range fit the element type and the extents. -/
structure WellFormed (t : Tensor) : Prop where
  storage : t.data.fits t.dtype = true
  count : t.data.size = elementCount t.dims
  range : InRange t.dtype t.data

/-- A tensor from its parts. -/
def make (dtype : DType) (dims : List Nat) (data : Elements) : Except TensorError Tensor :=
  if !data.fits dtype then .error (.storage dtype data.name)
  else if elementCount dims ≠ data.size then
    .error (.elementCount dims (elementCount dims) data.size)
  else .ok ⟨dtype, dims, data⟩

/-! ## Elements as doubles -/

/-- The stored form of numbers: rounded, truncated or tested for zero as the element type asks. -/
def store (values : Array Float) : DType → Elements
  | .f32 => .f32 (values.map Number.narrow)
  | .f16 => .f32 (values.map fun v => Number.roundToHalf (Number.narrow v))
  | .f64 => .f64 values
  | .i8 => .i32 (values.map fun v => Int32.ofInt (Number.truncate 8 v))
  | .i32 => .i32 (values.map fun v => Int32.ofInt (Number.truncate 32 v))
  | .i64 => .i64 (values.map fun v => Int64.ofInt (Number.truncate 64 v))
  | .bool => .bool (values.map fun v => if v == 0.0 then 0 else 1)

/-- A tensor of the given numbers. -/
def ofDoubles (dtype : DType) (dims : List Nat) (values : Array Float) :
    Except TensorError Tensor :=
  make dtype dims (store values dtype)

/-- The elements as doubles. -/
def doubles (t : Tensor) : Array Float :=
  match t.data with
  | .f32 v => v.map Number.widen
  | .f64 v => v
  | .i32 v => v.map fun n => Number.ofInt n.toInt
  | .i64 v => v.map fun n => Number.ofInt n.toInt
  | .bool v => v.map fun n => Number.ofInt n.toNat

/-- The elements as singles. -/
def singles (t : Tensor) : Array Float32 :=
  match t.data with
  | .f32 v => v
  | _ => t.doubles.map Number.narrow

/-- The elements as 64-bit integers. -/
def integers (t : Tensor) : Array Int64 :=
  match t.data with
  | .i64 v => v
  | .i32 v => v.map fun n => Int64.ofInt n.toInt
  | _ => t.doubles.map fun x => Int64.ofInt (Number.truncate 64 x)

/-! ## Making tensors -/

/-- Every element the same number. -/
def full (dtype : DType) (dims : List Nat) (value : Float) : Tensor :=
  ⟨dtype, dims, store (Array.replicate (elementCount dims) value) dtype⟩

/-- Every element one. -/
def ones (dtype : DType) (dims : List Nat) : Tensor := full dtype dims 1.0

/-- A tensor without axes. -/
def scalar (value : Float32) : Tensor := ⟨.f32, [], .f32 #[value]⟩

/-- Converts the elements; a tensor of the wanted type stays as it is. -/
def cast (t : Tensor) (dtype : DType) : Tensor :=
  if dtype = t.dtype then t else ⟨dtype, t.dims, store t.doubles dtype⟩

/-- The same elements under other extents. -/
def reshape (t : Tensor) (dims : List Nat) : Except TensorError Tensor :=
  if elementCount dims = t.size then .ok { t with dims := dims }
  else .error (.reshape t.dims dims)

/-- The largest magnitude of an element; zero if there is none. -/
def maxMagnitude (t : Tensor) : Float :=
  t.doubles.foldl (fun best x => Number.larger best x.abs) 0.0

end Tensor

end HybridGraph
