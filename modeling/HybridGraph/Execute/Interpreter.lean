import HybridGraph.Execute.Run
import HybridGraph.Kernel.Movement
import HybridGraph.Kernel.Pointwise
import HybridGraph.Kernel.Product
import HybridGraph.Kernel.Reduction
/-!
# The reference interpreter

`Reference.interpret` runs any node except control flow and engine calls.  An attribute may be
written on the node or passed as the operand that carries it, so a graph runs before and after its
attribute operands are folded.
-/

namespace HybridGraph

namespace Reference

/-- A node and the values of its operands. -/
structure Call where
  node : Node
  args : List Datum

namespace Call

/-! ## Operands and attributes -/

/-- Fails at the node. -/
def fail {α : Type} (call : Call) (fault : NodeFault) : Except ExecError α :=
  .error (call.node.fault fault)

/-- Blames the node for a kernel error. -/
def kernel {α : Type} (call : Call) (result : Except KernelError α) : Except ExecError α :=
  result.mapError fun cause => call.node.fault (.kernel cause)

/-- The value of an operand. -/
def arg? (call : Call) (operand : Nat) : Option Datum := call.args[operand]?

/-- A tensor operand. -/
def tensor (call : Call) (operand : Nat) : Except ExecError Tensor :=
  match call.arg? operand with
  | some (.tensor t) => .ok t
  | some (.scalar a) => call.fail (.notTensor operand a)
  | none => call.fail (.missingOperand operand)

/-- The only element of a tensor without axes as a scalar. -/
def scalarOf (t : Tensor) : Attr :=
  let value := t.doubles.getD 0 0.0
  if t.dtype.isFloat then .float value
  else if t.dtype = .bool then .bool (value != 0.0)
  else .int (Number.truncate 64 value)

/-- The operand that carries an attribute. -/
def attrOperand? (call : Call) (name : String) : Option Datum := do
  let first ← call.node.kind.tensorOperands?
  let place ← call.node.kind.attributeNames.findIdx? (· == name)
  call.arg? (first + place)

/-- An attribute, from the node or from its operand. -/
def attr? (call : Call) (name : String) : Option Attr :=
  match call.node.attr? name, call.attrOperand? name with
  | some a, _ => some a
  | none, some (.scalar a) => some a
  | none, some (.tensor t) => if t.rank = 0 then some (scalarOf t) else none
  | none, none => none

/-- A number that may be absent or none. -/
def float? (call : Call) (name : String) : Except ExecError (Option Float) :=
  match call.attr? name with
  | none | some .none => .ok none
  | some a =>
    match a.float? with
    | some x => .ok (some x)
    | none => call.fail (.notNumber name a)

/-- A number with a default. -/
def float (call : Call) (name : String) (default : Float) : Except ExecError Float := do
  return (← call.float? name).getD default

/-- An integer that must be there. -/
def int (call : Call) (name : String) : Except ExecError Int :=
  match (call.attr? name).bind Attr.int? with
  | some n => .ok n
  | none => call.fail (.missingInteger name)

/-- A truth value; whatever is none counts as false. -/
def flag (call : Call) (name : String) : Bool := ((call.attr? name).bind Attr.bool?).getD false

/-- A list of integers; a single one counts as a list. -/
def ints (call : Call) (name : String) : Except ExecError (List Int) :=
  match call.attr? name with
  | some (.ints ns) => .ok ns
  | some (.int n) => .ok [n]
  | found => call.fail (.notIntList name found)

/-- An element type that may be absent or none; an integer is a scalar code. -/
def dtype? (call : Call) (name : String) : Except ExecError (Option DType) :=
  match call.attr? name with
  | none | some .none => .ok none
  | some (.dtype t) => .ok (some t)
  | some (.int code) =>
    match DType.ofScalarCode? code with
    | some t => .ok (some t)
    | none => call.fail (.scalarCode code)
  | some a => call.fail (.notDType name a)

/-- The right-hand side of a function of two operands: a tensor or a number. -/
def right (call : Call) : Except ExecError (Tensor ⊕ Float) :=
  match call.arg? 1 with
  | some (.tensor t) => .ok (.inl t)
  | some (.scalar a) =>
    match a.float? with
    | some x => .ok (.inr x)
    | none => call.fail (.scalarOperand a)
  | none =>
    match call.node.float? "other" with
    | some x => .ok (.inr x)
    | none => call.fail .missingRight

/-- An axis, wrapped and checked against a rank. -/
def axis (call : Call) (n : Int) (rank : Nat) : Except ExecError Nat :=
  call.kernel (Kernel.axisIndex n rank)

/-! ## Families of operations -/

/-- A function of every element of the first operand. -/
def mapAs (call : Call) (dtype : DType → DType) (f : Float → Float) : Except ExecError Tensor := do
  let x ← call.tensor 0
  call.kernel (Kernel.map x (dtype x.dtype) f)

/-- A function whose result is floating. -/
def pointwise (call : Call) (f : Float → Float) : Except ExecError Tensor :=
  call.mapAs Kernel.floatResult f

/-- A function of two operands.  A number that is not whole makes an integer result floating. -/
def binary (call : Call) (f : Float → Float → Float) : Except ExecError Tensor := do
  let lhs ← call.tensor 0
  match ← call.right with
  | .inl rhs => call.kernel (Kernel.binary lhs rhs (Kernel.promote lhs.dtype rhs.dtype) f)
  | .inr x =>
    let dtype := if Number.hasFraction x && !lhs.dtype.isFloat then .f32 else lhs.dtype
    call.kernel (Kernel.map lhs dtype (f · x))

/-- Division, whose result is floating. -/
def divide (call : Call) : Except ExecError Tensor := do
  let lhs ← call.tensor 0
  match ← call.right with
  | .inl rhs =>
    call.kernel
      (Kernel.binary lhs rhs (Kernel.floatResult (Kernel.promote lhs.dtype rhs.dtype)) (· / ·))
  | .inr x => call.kernel (Kernel.map lhs (Kernel.floatResult lhs.dtype) (· / x))

/-- Clamping; a missing bound does not bind. -/
def clamp (call : Call) : Except ExecError Tensor := do
  let low ← call.float? "min"
  let high ← call.float? "max"
  call.mapAs id fun x =>
    let x := low.elim x (Number.larger x)
    high.elim x (Number.smaller x)

/-- `x · wᵀ + b`. -/
def linear (call : Call) : Except ExecError Tensor := do
  let x ← call.tensor 0
  let weight ← call.tensor 1
  if weight.rank ≠ 2 then call.fail (.weightRank weight.dims)
  else
    let product ← call.kernel (Kernel.permute weight [1, 0] >>= Kernel.matmul x)
    match call.arg? 2 with
    | some (.tensor bias) => call.kernel (Kernel.binary product bias product.dtype (· + ·))
    | _ => return product

/-- Constant padding. -/
def constantPad (call : Call) : Except ExecError Tensor := do
  let x ← call.tensor 0
  let amounts ← call.ints "pad"
  let value ← call.float "value" 0.0
  if amounts.length % 2 ≠ 0 ∨ x.rank < amounts.length / 2 then
    call.fail (.padList amounts x.rank)
  else
    let (pre, post) := Kernel.padSides x.rank amounts
    call.kernel (Kernel.pad x pre post value)

/-- Exchange of two axes. -/
def transpose (call : Call) : Except ExecError Tensor := do
  let x ← call.tensor 0
  let a ← call.axis (← call.int "dim0") x.rank
  let b ← call.axis (← call.int "dim1") x.rank
  call.kernel (Kernel.permute x (Kernel.exchange x.rank a b))

/-- The extents with those from `first` to `last` merged. -/
def flattenedExtents (dims : List Nat) (first last : Nat) : List Nat :=
  dims.take first ++ elementCount ((dims.take (last + 1)).drop first) :: dims.drop (last + 1)

/-- Merges a range of axes. -/
def flatten (call : Call) : Except ExecError Tensor := do
  let x ← call.tensor 0
  if x.rank = 0 then call.kernel (Kernel.reshape x [1])
  else
    let bound (name : String) (default : Int) : Except KernelError Nat :=
      Kernel.axisIndex (((call.attr? name).bind Attr.int?).getD default) x.rank
    match bound "start_dim" 0, bound "end_dim" (-1) with
    | .ok first, .ok last =>
      if first ≤ last then call.kernel (Kernel.reshape x (flattenedExtents x.dims first last))
      else call.fail (.flattenRange x.rank)
    | _, _ => call.fail (.flattenRange x.rank)

/-- The axes of a reduction: all of them unless some are named. -/
def reductionAxes (call : Call) (rank : Nat) : Except ExecError (List Nat) :=
  match call.attr? "dim" with
  | none | some .none | some (.ints []) => .ok (List.range rank)
  | some (.int n) => return [← call.axis n rank]
  | some (.ints ns) => ns.mapM (call.axis · rank)
  | some a => call.fail (.notAxes "dim" a)

/-- A sum or mean over axes.  Integers are summed as 64-bit integers and have no mean. -/
def reduce (call : Call) (mean : Bool) : Except ExecError Tensor := do
  let x ← call.tensor 0
  let named ← call.reductionAxes x.rank
  let axes := (List.range (max x.rank 1)).filter named.contains
  if mean && !x.dtype.isFloat then call.fail (.meanType x.dtype)
  else
    let dtype := (← call.dtype? "dtype").getD (if x.dtype.isFloat then x.dtype else .i64)
    call.kernel (Kernel.reduce (x.cast dtype) axes (call.flag "keepdim") mean dtype)

/-- Softmax along an axis. -/
def softmax (call : Call) : Except ExecError Tensor := do
  let x ← call.tensor 0
  let dtype := (← call.dtype? "dtype").getD (Kernel.floatResult x.dtype)
  let axis ← call.axis (← call.int "dim") x.rank
  call.kernel (Kernel.softmax x axis dtype)

/-- Running sums along an axis; integers are summed as 64-bit integers. -/
def cumsum (call : Call) : Except ExecError Tensor := do
  let x ← call.tensor 0
  let dtype := (← call.dtype? "dtype").getD (if x.dtype.isFloat then x.dtype else .i64)
  let axis ← call.axis (← call.int "dim") x.rank
  call.kernel (Kernel.cumsum x axis dtype)

/-- The extents of a tensor, or one of them. -/
def size (call : Call) : Except ExecError Attr := do
  let x ← call.tensor 0
  match call.attr? "dim" with
  | none | some .none => return .ints (x.dims.map fun (n : Nat) => (n : Int))
  | some a =>
    if x.rank = 0 then call.fail .noAxes
    else match a.int? with
      | none => call.fail (.notInt "dim" a)
      | some n => return .int (Kernel.extentAt x.dims (← call.axis n x.rank))

/-- The approximation of a `gelu` node. -/
def gelu (call : Call) : Except ExecError Tensor :=
  match (call.attr? "approximate").bind Attr.str? with
  | none => call.pointwise Kernel.geluErf
  | some name =>
    if name == "none" then call.pointwise Kernel.geluErf
    else if name == "tanh" then call.pointwise Kernel.geluTanh
    else call.fail (.approximation name)

/-- Runs a node that has one tensor as its result. -/
def tensorResult (call : Call) : Except ExecError Tensor := do
  match call.node.kind with
  | .relu => call.mapAs id Kernel.relu
  | .sigmoid => call.pointwise Kernel.sigmoid
  | .tanh => call.pointwise Float.tanh
  | .hardtanh =>
    let low ← call.float "min_val" (-1.0)
    let high ← call.float "max_val" 1.0
    call.pointwise (Kernel.clip low high)
  | .leakyRelu =>
    let slope ← call.float "negative_slope" 0.01
    call.pointwise (Kernel.leakyRelu · slope)
  | .elu =>
    let alpha ← call.float "alpha" 1.0
    let scale ← call.float "scale" 1.0
    let inputScale ← call.float "input_scale" 1.0
    call.pointwise (Kernel.elu · alpha scale inputScale)
  | .gelu => call.gelu
  | .silu => call.pointwise fun x => x * Kernel.sigmoid x
  | .prelu =>
    let x ← call.tensor 0
    call.kernel (Kernel.prelu x (← call.tensor 1))
  | .add =>
    let alpha ← call.float "alpha" 1.0
    call.binary fun a b => a + 1.0 * alpha * b
  | .sub =>
    let alpha ← call.float "alpha" 1.0
    call.binary fun a b => a + (-1.0) * alpha * b
  | .mul => call.binary (· * ·)
  | .div => call.divide
  | .pow => call.binary Float.pow
  | .maximum => call.binary Number.larger
  | .minimum => call.binary Number.smaller
  | .neg => call.mapAs id (-·)
  | .abs => call.mapAs id Float.abs
  | .exp => call.pointwise Float.exp
  | .log => call.pointwise Float.log
  | .sqrt => call.pointwise Float.sqrt
  | .erf => call.pointwise Kernel.erf
  | .clamp => call.clamp
  | .matmul =>
    let x ← call.tensor 0
    call.kernel (Kernel.matmul x (← call.tensor 1))
  | .linear => call.linear
  | .constantPad => call.constantPad
  | .reshape =>
    let x ← call.tensor 0
    let target ← call.ints "shape"
    call.kernel (Kernel.resolveShape x.dims target false >>= Kernel.reshape x)
  | .permute =>
    let x ← call.tensor 0
    let axes ← (← call.ints "dims").mapM (call.axis · x.rank)
    call.kernel (Kernel.permute x axes)
  | .transpose => call.transpose
  | .flatten => call.flatten
  | .softmax => call.softmax
  | .sum => call.reduce false
  | .mean => call.reduce true
  | .to =>
    let x ← call.tensor 0
    return x.cast ((← call.dtype? "dtype").getD x.dtype)
  | .dropout => if call.flag "train" then call.fail .training else call.tensor 0
  | .contiguous => call.tensor 0
  | .cumsum => call.cumsum
  | .constant | .size | .print | .branch | .loop | .engineCall => call.fail .noReference

/-- The value of a constant node. -/
def constantValue (node : Node) : Datum :=
  match node.attr? "value" with
  | some (.tensor t) => .tensor t
  | some a => .scalar a
  | none => .scalar .none

/-- Runs a node. -/
def results (call : Call) : Except ExecError (List Datum) :=
  match call.node.kind with
  | .constant => .ok [constantValue call.node]
  | .size => return [.scalar (← call.size)]
  | .print => .ok []
  | _ => return [.tensor (← call.tensorResult)]

end Call

/-- The reference interpreter. -/
def interpret : Interpreter := fun node args => (Call.mk node args).results

end Reference

end HybridGraph
