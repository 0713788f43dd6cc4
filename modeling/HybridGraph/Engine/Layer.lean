import HybridGraph.Tensor.Basic
/-!
# Layers

The closed set of layers an engine network is made of, and the descriptors of the tensors between
them.
-/

namespace HybridGraph

/-- The name of a tensor in one network. -/
structure TensorRef where
  index : Nat
deriving DecidableEq

/-- Element type and extents of a network tensor. -/
structure TensorSig where
  dtype : DType
  dims : List Dimension
deriving DecidableEq

namespace TensorSig

/-- Number of axes. -/
def rank (d : TensorSig) : Nat := d.dims.length

/-- A descriptor with known extents. -/
def of (dtype : DType) (dims : List Nat) : TensorSig := ⟨dtype, dims.map .fixed⟩

end TensorSig

/-- An activation function. -/
inductive Activation where
  | relu
  | sigmoid
  | tanh
  | clip (low high : Float)
  | leakyRelu (slope : Float)
  | elu (alpha : Float)

/-- A function of one tensor. -/
inductive UnaryOp where
  | neg | abs | exp | log | sqrt | erf | recip
deriving DecidableEq

namespace UnaryOp

/-- Every function. -/
def all : List UnaryOp := [.neg, .abs, .exp, .log, .sqrt, .erf, .recip]

/-- The tag in stored records. -/
def tag : UnaryOp → String
  | .neg => "Neg"
  | .abs => "Abs"
  | .exp => "Exp"
  | .log => "Log"
  | .sqrt => "Sqrt"
  | .erf => "Erf"
  | .recip => "Recip"

/-- The function of a tag. -/
def ofTag? (tag : String) : Option UnaryOp := all.find? (·.tag == tag)

end UnaryOp

/-- A function of two tensors, element by element. -/
inductive BinaryOp where
  | sum | sub | prod | div | max | min | pow
deriving DecidableEq

namespace BinaryOp

/-- Every function. -/
def all : List BinaryOp := [.sum, .sub, .prod, .div, .max, .min, .pow]

/-- The tag in stored records. -/
def tag : BinaryOp → String
  | .sum => "Sum"
  | .sub => "Sub"
  | .prod => "Prod"
  | .div => "Div"
  | .max => "Max"
  | .min => "Min"
  | .pow => "Pow"

/-- The function of a tag. -/
def ofTag? (tag : String) : Option BinaryOp := all.find? (·.tag == tag)

end BinaryOp

/-- What a reduction computes. -/
inductive ReduceOp where
  | sum | mean
deriving DecidableEq

namespace ReduceOp

/-- Every reduction. -/
def all : List ReduceOp := [.sum, .mean]

/-- The tag in stored records. -/
def tag : ReduceOp → String
  | .sum => "Sum"
  | .mean => "Mean"

/-- The reduction of a tag. -/
def ofTag? (tag : String) : Option ReduceOp := all.find? (·.tag == tag)

end ReduceOp

/-- A layer.  A shuffle permutes, then reshapes; in its target a zero copies the extent and one
`-1` is inferred.  Negative padding crops. -/
inductive LayerKind where
  | constant (value : Tensor)
  | activation (function : Activation)
  | unary (op : UnaryOp)
  | elementWise (op : BinaryOp)
  | parametricRelu
  | matrixMultiply
  | pad (pre post : List Int) (value : Float)
  | shuffle (permutation : Option (List Nat)) (target : Option (List Int))
  | softmax (axis : Nat)
  | reduce (op : ReduceOp) (axes : List Nat) (keepDims : Bool)
  | identity (dtype : DType)

namespace LayerKind

/-- The word for a layer in messages. -/
def label : LayerKind → String
  | .constant _ => "constant"
  | .activation _ => "activation"
  | .unary _ => "unary"
  | .elementWise _ => "elementwise"
  | .parametricRelu => "parametric_relu"
  | .matrixMultiply => "matrix_multiply"
  | .pad .. => "padding"
  | .shuffle .. => "shuffle"
  | .softmax _ => "softmax"
  | .reduce .. => "reduce"
  | .identity _ => "identity"

end LayerKind

/-- A layer in a network: what it reads and which tensor it defines. -/
structure Layer where
  name : String
  kind : LayerKind
  inputs : List TensorRef
  output : TensorRef

/-- One input or output of an engine. -/
structure EngineBinding where
  name : String
  dtype : DType
  shape : ShapeSpec
deriving DecidableEq

end HybridGraph
