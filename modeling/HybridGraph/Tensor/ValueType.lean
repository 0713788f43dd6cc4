import HybridGraph.Tensor.DType
import HybridGraph.Tensor.Shape
/-!
# Types of values

What is known about a value that flows through a graph: a tensor with its element type and extents
as far as they are declared, a scalar, or a list of scalars.
-/

namespace HybridGraph

/-- A kind of scalar. -/
inductive ScalarKind where
  | int | float | bool | str
deriving DecidableEq

namespace ScalarKind

/-- Every kind. -/
def all : List ScalarKind := [.int, .float, .bool, .str]

/-- The tag in stored records and in the long spelling of types. -/
def tag : ScalarKind → String
  | .int => "Int"
  | .float => "Float"
  | .bool => "Bool"
  | .str => "Str"

/-- The kind of a tag. -/
def ofTag? (tag : String) : Option ScalarKind := all.find? (·.tag == tag)

/-- The spelling in graph texts. -/
def name : ScalarKind → String
  | .int => "int"
  | .float => "float"
  | .bool => "bool"
  | .str => "str"

/-- The kind of a spelling. -/
def ofName? (name : String) : Option ScalarKind := all.find? (·.name == name)

end ScalarKind

/-- What is declared about a tensor. -/
structure TensorType where
  dtype : Option DType
  shape : Option (List Dimension)
deriving DecidableEq

namespace TensorType

/-- Nothing is known. -/
def unknown : TensorType := ⟨none, none⟩

/-- Element type and all extents are known. -/
def of (dtype : DType) (dims : List Nat) : TensorType := ⟨some dtype, some (dims.map .fixed)⟩

/-- Number of axes. -/
def rank? (t : TensorType) : Option Nat := t.shape.map List.length

/-- All extents, if all of them are known. -/
def fixedExtents? (t : TensorType) : Option (List Nat) := t.shape.bind HybridGraph.fixedExtents?

/-- Axes and element type in reverse order of axes. -/
def transposed (t : TensorType) : TensorType := ⟨t.dtype, t.shape.map List.reverse⟩

end TensorType

/-- The type of a value. -/
inductive ValueType where
  | tensor (type : TensorType)
  | scalar (kind : ScalarKind)
  | list (kind : ScalarKind)
deriving DecidableEq

namespace ValueType

/-- Whether values of the type are tensors. -/
def isTensor : ValueType → Bool
  | .tensor _ => true
  | _ => false

/-- The tensor type, if it is one. -/
def tensor? : ValueType → Option TensorType
  | .tensor t => some t
  | _ => none

/-- The declared element type. -/
def dtype? (t : ValueType) : Option DType := t.tensor?.bind TensorType.dtype

/-- The spelling in messages. -/
def text : ValueType → String
  | .tensor t =>
    let dtype := (t.dtype.map DType.name).getD "?"
    match t.shape with
    | some dims => "tensor<" ++ dtype ++ ", " ++ "x".intercalate (dims.map Dimension.text) ++ ">"
    | none => s!"tensor<{dtype}>"
  | .scalar kind => kind.tag
  | .list kind => kind.tag ++ "[]"

end ValueType

end HybridGraph
