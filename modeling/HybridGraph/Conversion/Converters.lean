import HybridGraph.Conversion.Emit
import HybridGraph.Kernel.Movement
import HybridGraph.Kernel.Pointwise
/-!
# Converters

For every kind that engines know, the layers of a node.  Each converter reads the operands of the
node it runs for, checks what the declared types left open, and answers the tensor of the result.
-/

namespace HybridGraph

namespace Converter

open Emit

variable {A : Accelerator}

/-! ## Constants and activations -/

/-- A weight. -/
def constant : Emit A TensorRef := do
  let payload := ((← node).attr? "value").bind Attr.tensor?
  Emit.constant (← orFail payload .constantPayload)

/-- An activation of the first operand. -/
def activation (function : Activation) : Emit A TensorRef := do
  let x ← input 0
  needFloat (← describe x)
  layer (.activation function) [x]

/-- Clipping. -/
def hardtanh : Emit A TensorRef := do
  let low ← float "min_val"
  let high ← float "max_val"
  activation (.clip low high)

/-- A slope below zero. -/
def leakyRelu : Emit A TensorRef := do
  activation (.leakyRelu (← float "negative_slope"))

/-- An exponential below zero. -/
def elu : Emit A TensorRef := do
  activation (.elu (← float "alpha"))

/-- Multiplies by a number. -/
def scaled (x : TensorRef) (factor : Float) (like : TensorSig) : Emit A TensorRef := do
  let factor ← scalar factor like
  layer (.elementWise .prod) [x, factor]

/-- `tanh(√(2/π) · (x + 0.044715 · x³))`. -/
def tanhTerm (x : TensorRef) (like : TensorSig) : Emit A TensorRef := do
  let three ← scalar 3.0 like
  let cube ← layer (.elementWise .pow) [x, three]
  let weighted ← scaled cube Kernel.cubicWeight like
  let sum ← layer (.elementWise .sum) [x, weighted]
  let argument ← scaled sum Kernel.rootTwoOverPi like
  layer (.activation .tanh) [argument]

/-- `erf(x / √2)`. -/
def erfTerm (x : TensorRef) (like : TensorSig) : Emit A TensorRef := do
  let argument ← scaled x Kernel.rootHalf like
  layer (.unary .erf) [argument]

/-- `(0.5 · x) · (1 + t)` with the inner term that the node asks for. -/
def gelu : Emit A TensorRef := do
  let x ← input 0
  let desc ← describe x
  needFloat desc
  let useTanh := (← node).str? "approximate" == some "tanh"
  let inner ← if useTanh then tanhTerm x desc else erfTerm x desc
  let one ← scalar 1.0 desc
  let shifted ← layer (.elementWise .sum) [inner, one]
  let half ← scaled x 0.5 desc
  layer (.elementWise .prod) [half, shifted]

/-- `x · sigmoid(x)`. -/
def silu : Emit A TensorRef := do
  let x ← input 0
  needFloat (← describe x)
  let gate ← layer (.activation .sigmoid) [x]
  layer (.elementWise .prod) [x, gate]

/-- A slope per channel. -/
def prelu : Emit A TensorRef := do
  let x ← input 0
  let slope ← input 1
  needFloat (← describe x)
  let rank := (← describe slope).rank
  if 1 < rank then fail (.slopeRank rank)
  layer .parametricRelu [x, slope]

/-! ## Element by element -/

/-- The layer of a binary kind. -/
def binaryOp? : OpKind → Option BinaryOp
  | .add => some .sum
  | .sub => some .sub
  | .mul => some .prod
  | .div => some .div
  | .pow => some .pow
  | .maximum => some .max
  | .minimum => some .min
  | _ => none

/-- The layer of a unary kind. -/
def unaryOp? : OpKind → Option UnaryOp
  | .neg => some .neg
  | .abs => some .abs
  | .exp => some .exp
  | .log => some .log
  | .sqrt => some .sqrt
  | .erf => some .erf
  | _ => none

/-- The right-hand side of a binary node: the second operand or the number `other`. -/
def rightOperand (like : TensorSig) : Emit A TensorRef := do
  let node ← node
  if node.inputs.length = 2 then input 1
  else scalar (← orFail (node.float? "other") .missingOther) like

/-- A binary node; the right-hand side is multiplied by `alpha` unless that is one. -/
def binary : Emit A TensorRef := do
  let node ← node
  let op ← orFail (binaryOp? node.kind) .notBinary
  let lhs ← input 0
  let desc ← describe lhs
  let rhs ← rightOperand desc
  let rhsType := (← describe rhs).dtype
  if rhsType ≠ desc.dtype then fail (.operandTypes desc.dtype rhsType)
  let alpha := (node.float? "alpha").getD 1.0
  let rhs ← if alpha != 1.0 then scaled rhs alpha desc else pure rhs
  layer (.elementWise op) [lhs, rhs]

/-- A unary node. -/
def unary : Emit A TensorRef := do
  let op ← orFail (unaryOp? (← node).kind) .notUnary
  let x ← input 0
  layer (.unary op) [x]

/-- Takes the larger or smaller of a tensor and a bound, if there is one. -/
def limit (op : BinaryOp) (bound : Option Float) (like : TensorSig) (x : TensorRef) :
    Emit A TensorRef := do
  match bound with
  | none => return x
  | some value =>
    let value ← scalar value like
    layer (.elementWise op) [x, value]

/-- Clamping: one activation for floats with two bounds, else one layer per bound. -/
def clamp : Emit A TensorRef := do
  let x ← input 0
  let desc ← describe x
  let node ← node
  match (node.bound? "min").join, (node.bound? "max").join with
  | some low, some high =>
    if desc.dtype.isFloat then layer (.activation (.clip low high)) [x]
    else limit .min (some high) desc (← limit .max (some low) desc x)
  | low, high => limit .min high desc (← limit .max low desc x)

/-! ## Products and reductions -/

/-- Refuses operands of a product that are not floating or have less than two axes. -/
def needMatrix (x : TensorRef) : Emit A Unit := do
  let desc ← describe x
  needFloat desc
  if desc.rank < 2 then fail (.matmulRank desc.rank)

/-- A product. -/
def matmul : Emit A TensorRef := do
  let lhs ← input 0
  let rhs ← input 1
  needMatrix lhs
  needMatrix rhs
  layer .matrixMultiply [lhs, rhs]

/-- Permutes and reshapes. -/
def shuffle (x : TensorRef) (permutation : Option (List Nat)) (target : Option (List Int)) :
    Emit A TensorRef :=
  layer (.shuffle permutation target) [x]

/-- `x · wᵀ + b`. -/
def linear : Emit A TensorRef := do
  let x ← input 0
  let weight ← input 1
  needFloat (← describe x)
  if (← describe weight).rank ≠ 2 then fail .linearWeight
  let permuted ← shuffle weight (some [1, 0]) none
  let product ← layer .matrixMultiply [x, permuted]
  if (← node).inputs.length = 3 then
    let bias ← input 2
    layer (.elementWise .sum) [product, bias]
  else return product

/-- Softmax along an axis. -/
def softmax : Emit A TensorRef := do
  let x ← input 0
  let desc ← describe x
  needFloat desc
  let dim ← orFail ((← node).int? "dim") .softmaxAxis
  layer (.softmax (← axis dim desc.rank)) [x]

/-- A reduction over the named axes in order, each once; over all axes if none are named. -/
def reduce : Emit A TensorRef := do
  let node ← node
  let op := if node.kind = .mean then ReduceOp.mean else .sum
  let x ← input 0
  let desc ← describe x
  if op = .mean then needFloat desc
  let named ← match ← orFail node.axes? .reductionAxes with
    | some ns => ns.mapM (axis · desc.rank)
    | none => pure (List.range desc.rank)
  let axes := (List.range (max desc.rank 1)).filter named.contains
  layer (.reduce op axes ((node.bool? "keepdim").getD false)) [x]

/-! ## Shapes -/

/-- A reshape. -/
def reshape : Emit A TensorRef := do
  let x ← input 0
  shuffle x none (some (← ints "shape"))

/-- The first entry that stands in a list already. -/
def firstRepeat? (seen : List Nat) : List Nat → Option Nat
  | [] => none
  | n :: rest => if seen.contains n then some n else firstRepeat? (n :: seen) rest

/-- A permutation of all axes. -/
def permute : Emit A TensorRef := do
  let x ← input 0
  let rank := (← describe x).rank
  let dims ← ints "dims"
  if dims.length ≠ rank then fail (.permuteCount dims.length rank)
  let permutation ← dims.mapM (axis · rank)
  match firstRepeat? [] permutation with
  | some axis => fail (.permuteRepeats axis)
  | none => shuffle x (some permutation) none

/-- Refuses an axis that the tensor does not have. -/
def needAxis (axis rank : Nat) : Emit A Unit :=
  if axis < rank then pure () else fail (.missingAxis axis rank)

/-- Exchange of two axes. -/
def transpose : Emit A TensorRef := do
  let x ← input 0
  let rank := (← describe x).rank
  let node ← node
  match node.int? "dim0", node.int? "dim1" with
  | some dim0, some dim1 =>
    let a ← axis dim0 rank
    let b ← axis dim1 rank
    needAxis a rank
    needAxis b rank
    shuffle x (some (Kernel.exchange rank a b)) none
  | _, _ => fail .transposeAxes

/-- The extent of an axis behind the merged ones, which must be known. -/
def trailingExtent (entry : Dimension × Nat) : Emit A Int :=
  match entry.1 with
  | .fixed n => pure n
  | .dynamic => fail (.flattenOpen entry.2)

/-- Merges a range of axes: those before it are copied and the merged extent is inferred. -/
def flatten : Emit A TensorRef := do
  let x ← input 0
  let desc ← describe x
  if desc.rank = 0 then shuffle x none (some [1])
  else
    let node ← node
    let first ← axis ((node.int? "start_dim").getD 0) desc.rank
    let last ← axis ((node.int? "end_dim").getD (-1)) desc.rank
    if last < first then fail (.flattenOrder first last)
    let trailing ← (desc.dims.zipIdx.drop (last + 1)).mapM trailingExtent
    shuffle x none (some (List.replicate first 0 ++ -1 :: trailing))

/-- Constant padding. -/
def pad : Emit A TensorRef := do
  let x ← input 0
  let rank := (← describe x).rank
  let amounts ← ints "pad"
  if amounts.length % 2 ≠ 0 ∨ rank < amounts.length / 2 then fail (.padList amounts.length rank)
  let (pre, post) := Kernel.padSides rank amounts
  let value := ((← node).float? "value").getD 0.0
  layer (.pad pre post value) [x]

/-! ## Conversions of type and copies -/

/-- A conversion to the named element type, or a copy. -/
def cast : Emit A TensorRef := do
  let x ← input 0
  match (← node).dtype? "dtype" with
  | some dtype => layer (.identity dtype) [x]
  | none => layer (.identity (← describe x).dtype) [x]

/-- A copy. -/
def copy : Emit A TensorRef := do
  let x ← input 0
  layer (.identity (← describe x).dtype) [x]

end Converter

end HybridGraph
