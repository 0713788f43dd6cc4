import HybridGraph.Graph.Basic
import HybridGraph.Number.Decimal
/-!
# What engines support

For every kind with a converter, a predicate on a node, its attributes and the types of its values
that says whether the node can become engine layers, or gives the first reason why not.  What the
types leave open is decided when the layers are added.
-/

namespace HybridGraph

/-- Why a node cannot become layers. -/
inductive Reason where
  | interpreterOnly (kind : OpKind)
  | noConverter (kind : OpKind)
  | operandCount (expected found : Nat)
  | operandNotTensor (operand : Nat)
  | resultNotTensor
  | notFloating (operand : Nat) (dtype : DType)
  | notNumber (name : String)
  | notIntList (name : String)
  | constantResults
  | scalarConstant
  | constantPayload
  | scalarOther
  | binaryOperands
  | mixedTypes (lhs rhs : DType)
  | integerDivision (dtype : DType)
  | fractional (name : String) (value : Float) (dtype : DType)
  | declaredResult (operands result : DType)
  | noBounds
  | boundsNotNumbers
  | eluScale
  | unknownApproximation (name : String)
  | approximation
  | vectorOperand (operand rank : Nat)
  | linearOperands (found : Nat)
  | linearWeight (rank : Nat)
  | resultType (requested : DType)
  | notDType
  | softmaxAxis
  | reductionAxes
  | keepDims
  | reshapeExtents
  | reshapeInferred
  | transposeAxes
  | flattenAxes
  | flattenRange (rank : Nat)
  | openAxis (axis : Nat)
  | oddPad
  | padRank (covered rank : Nat)
  | padValue
  | wideCast (dtype : DType)
  | training
  | custom (text : String)

/-- The wording of a reason. -/
def Reason.message : Reason → String
  | .interpreterOnly kind => s!"{kind.name} only runs under the interpreter"
  | .noConverter kind => s!"no converter registered for {kind.name}"
  | .operandCount expected found =>
    s!"expected {expected} tensor operand(s), found {found} operands; " ++
      "attribute operands must be constant"
  | .operandNotTensor operand => s!"operand {operand} is not a tensor"
  | .resultNotTensor => "result is not a tensor"
  | .notFloating operand dtype => s!"operand {operand} has non-floating dtype {dtype.name}"
  | .notNumber name => s!"`{name}` is not a constant number"
  | .notIntList name => s!"`{name}` is not a constant int list"
  | .constantResults => "constant without a single result"
  | .scalarConstant => "scalar constant"
  | .constantPayload => "constant payload is not a tensor"
  | .scalarOther => "scalar `other` is not a constant number"
  | .binaryOperands => "expected two tensor operands; a non-constant alpha blocks conversion"
  | .mixedTypes lhs rhs => s!"mixed operand dtypes {lhs.name} and {rhs.name}"
  | .integerDivision dtype => s!"{dtype.name} division produces a float result"
  | .fractional name value dtype =>
    let shown := Number.FloatLayout.plain.double value
    s!"fractional `{name}` {shown} on a {dtype.name} tensor"
  | .declaredResult operands result =>
    s!"{operands.name} operands declare a {result.name} result"
  | .noBounds => "clamp without bounds"
  | .boundsNotNumbers => "clamp bounds are not constant numbers"
  | .eluScale => "elu with non-unit scale or input_scale"
  | .unknownApproximation name => s!"unknown gelu approximation `{name}`"
  | .approximation => "gelu approximation is not a constant string"
  | .vectorOperand operand rank => s!"operand {operand} has rank {rank}, matmul needs rank >= 2"
  | .linearOperands found => s!"linear takes 2 or 3 operands, found {found}"
  | .linearWeight rank => s!"linear weight has rank {rank}"
  | .resultType requested => s!"result dtype {requested.name} differs from operand"
  | .notDType => "`dtype` is not a constant dtype"
  | .softmaxAxis => "softmax `dim` is not a constant int"
  | .reductionAxes => "reduction `dim` is not a constant int list"
  | .keepDims => "`keepdim` is not a constant bool"
  | .reshapeExtents => "reshape target has zero or negative extents"
  | .reshapeInferred => "reshape target infers more than one extent"
  | .transposeAxes => "transpose dims are not constant ints"
  | .flattenAxes => "flatten dims are not constant ints"
  | .flattenRange rank => s!"flatten end_dim is out of range for rank {rank}"
  | .openAxis axis => s!"dynamic axis {axis} follows the flattened run"
  | .oddPad => "pad list has odd length"
  | .padRank covered rank => s!"pad covers {covered} axes of a rank-{rank} tensor"
  | .padValue => "pad value is not a constant number"
  | .wideCast dtype => s!"cast to {dtype.name} stays in the interpreter"
  | .training => "dropout in training mode"
  | .custom text => text

/-- Supported, or the first reason why not. -/
abbrev Support := Except Reason Unit

/-! ## Reading nodes -/

namespace Node

/-- The declared tensor type of an operand. -/
def operandType? (node : Node) (g : Graph) (operand : Nat) : Option TensorType :=
  node.inputs[operand]?.bind g.tensorType?

/-- The declared element type of an operand. -/
def operandDType? (node : Node) (g : Graph) (operand : Nat) : Option DType :=
  (node.operandType? g operand).bind TensorType.dtype

/-- The declared rank of an operand. -/
def operandRank? (node : Node) (g : Graph) (operand : Nat) : Option Nat :=
  (node.operandType? g operand).bind TensorType.rank?

/-- A bound that may be absent or none; the outer option is empty when it is no number. -/
def bound? (node : Node) (name : String) : Option (Option Float) :=
  match node.attr? name with
  | none | some .none => some none
  | some a => a.float?.map some

/-- The axes of a reduction, all of them if none are named; the outer option is empty when they
are no integers. -/
def axes? (node : Node) : Option (Option (List Int)) :=
  match node.attr? "dim" with
  | none | some .none => some none
  | some (.int n) => some (some [n])
  | some (.ints ns) => some (some ns)
  | some _ => none

end Node

namespace Support

variable (g : Graph) (node : Node)

/-! ## Shared conditions -/

/-- Refuses unless a condition holds. -/
def require (condition : Bool) (reason : Reason) : Support :=
  if condition then .ok () else .error reason

/-- Exactly so many operands, all of them tensors, and tensor results. -/
def tensors (count : Nat) : Support := do
  require (node.inputs.length = count) (.operandCount count node.inputs.length)
  node.inputs.zipIdx.forM fun (v, operand) => require (g.isTensor v) (.operandNotTensor operand)
  require (node.outputs.all g.isTensor) .resultNotTensor

/-- An operand is floating unless its element type is not declared. -/
def floating (operand : Nat) : Support :=
  match node.operandDType? g operand with
  | some dtype => require dtype.isFloat (.notFloating operand dtype)
  | none => .ok ()

/-- One floating operand. -/
def floatUnary : Support := do
  tensors g node 1
  floating g node 0

/-- An attribute is a number. -/
def number (name : String) : Support := require (node.float? name).isSome (.notNumber name)

/-- An attribute is a list of integers. -/
def intList (name : String) : Support := require (node.ints? name).isSome (.notIntList name)

/-- An attribute is absent or a number. -/
def optionalNumber (name : String) (reason : Reason) : Support :=
  require ((node.attr? name).all fun a => a.float?.isSome) reason

/-! ## Constants and activations -/

/-- Only tensors become weights. -/
def constant : Support := do
  match node.output? with
  | none => throw .constantResults
  | some v =>
    require (g.isTensor v) .scalarConstant
    require ((node.attr? "value").bind Attr.tensor?).isSome .constantPayload

/-- Clipping to two constant bounds. -/
def hardtanh : Support := do
  floatUnary g node
  number node "min_val"
  number node "max_val"

/-- A constant slope. -/
def leakyRelu : Support := do
  floatUnary g node
  number node "negative_slope"

/-- A constant factor and no other scale. -/
def elu : Support := do
  floatUnary g node
  number node "alpha"
  let isOne (name : String) : Bool := (node.float? name).all (· == 1.0)
  require (isOne "scale" && isOne "input_scale") .eluScale

/-- A known approximation. -/
def gelu : Support := do
  floatUnary g node
  match node.str? "approximate" with
  | some name => require (name == "none" || name == "tanh") (.unknownApproximation name)
  | none => throw .approximation

/-- Two floating operands. -/
def floatBinary : Support := do
  tensors g node 2
  floating g node 0
  floating g node 1

/-! ## Element by element -/

/-- Any tensor. -/
def unary : Support := tensors g node 1

/-- The operands of a binary kind: two tensors, or a tensor and a constant number. -/
def binaryOperands : Support :=
  match node.inputs.length with
  | 1 => do
    require (node.float? "other").isSome .scalarOther
    tensors g node 1
  | 2 => tensors g node 2
  | _ => .error .binaryOperands

/-- The operands have one element type as far as it is declared. -/
def sameTypes : Support :=
  match node.operandDType? g 0, node.operandDType? g 1 with
  | some lhs, some rhs => require (lhs = rhs) (.mixedTypes lhs rhs)
  | _, _ => .ok ()

/-- Layers keep the element type of their operands, so integers may not be divided or meet
numbers with a fraction. -/
def wholeNumbers (dtype : DType) : Support := do
  if !dtype.isFloat then
    require (node.kind ≠ .div) (.integerDivision dtype)
    ["other", "alpha"].forM fun name =>
      match node.float? name with
      | some x => require (!Number.hasFraction x) (.fractional name x dtype)
      | none => .ok ()

/-- The declared result has the element type of the operands. -/
def keepsType (dtype : DType) : Support :=
  match node.outputs.head?.bind g.dtype? with
  | some result => require (result = dtype) (.declaredResult dtype result)
  | none => .ok ()

/-- A binary kind. -/
def binary : Support := do
  binaryOperands g node
  if node.kind = .add ∨ node.kind = .sub then
    optionalNumber node "alpha" (.notNumber "alpha")
  sameTypes g node
  match node.operandDType? g 0 with
  | some dtype =>
    wholeNumbers node dtype
    keepsType g node dtype
  | none => return

/-- Constant bounds, at least one of them. -/
def clamp : Support := do
  tensors g node 1
  match node.bound? "min", node.bound? "max" with
  | some none, some none => throw .noBounds
  | some _, some _ => return
  | _, _ => throw .boundsNotNumbers

/-! ## Products and reductions -/

/-- An operand is no vector as far as its rank is declared. -/
def matrix (operand : Nat) : Support :=
  match node.operandRank? g operand with
  | some rank => require (2 ≤ rank) (.vectorOperand operand rank)
  | none => .ok ()

/-- Two floating operands of at least two axes. -/
def matmul : Support := do
  floatBinary g node
  matrix g node 0
  matrix g node 1

/-- Two or three operands, the second one a matrix. -/
def linear : Support := do
  let count := node.inputs.length
  require (count = 2 || count = 3) (.linearOperands count)
  tensors g node count
  floating g node 0
  match node.operandRank? g 1 with
  | some rank => require (rank = 2) (.linearWeight rank)
  | none => return

/-- A requested result type is the declared type of the operand. -/
def requestedType : Support :=
  match node.attr? "dtype" with
  | none | some .none => .ok ()
  | some (.dtype requested) =>
    require (node.operandDType? g 0 = some requested) (.resultType requested)
  | some _ => .error .notDType

/-- A constant axis. -/
def softmax : Support := do
  floatUnary g node
  require (node.int? "dim").isSome .softmaxAxis
  requestedType g node

/-- Constant axes; a mean needs floating operands. -/
def reduce : Support := do
  tensors g node 1
  if node.kind = .mean then floating g node 0
  require node.axes?.isSome .reductionAxes
  match node.attr? "keepdim" with
  | none | some (.bool _) => pure ()
  | some _ => throw .keepDims
  requestedType g node

/-! ## Shapes -/

/-- A constant target without zeros that infers at most one extent. -/
def reshape : Support := do
  tensors g node 1
  intList node "shape"
  let target := (node.ints? "shape").getD []
  require (target.all fun n => 0 < n || n == -1) .reshapeExtents
  require (target.count (-1) ≤ 1) .reshapeInferred

/-- Constant axes. -/
def permute : Support := do
  tensors g node 1
  intList node "dims"

/-- Two constant axes. -/
def transpose : Support := do
  tensors g node 1
  require ((node.int? "dim0").isSome && (node.int? "dim1").isSome) .transposeAxes

/-- The first unknown extent from an axis on. -/
def firstOpen? (dims : List Dimension) (start : Nat) : Option Nat :=
  (dims.zipIdx.drop start).findSome? fun (dim, axis) =>
    if dim = .dynamic then some axis else none

/-- Axes after the merged ones have known extents as far as the type is declared. -/
def flatten : Support := do
  tensors g node 1
  require ((node.int? "start_dim").isSome && (node.int? "end_dim").isSome) .flattenAxes
  match (node.operandType? g 0).bind TensorType.shape with
  | none | some [] => return
  | some dims =>
    let last := (node.int? "end_dim").getD (-1)
    let last := if last < 0 then last + dims.length else last
    require (0 ≤ last && last < dims.length) (.flattenRange dims.length)
    match firstOpen? dims (last.toNat + 1) with
    | some axis => throw (.openAxis axis)
    | none => return

/-- Constant amounts in pairs, for no more axes than there are. -/
def pad : Support := do
  tensors g node 1
  intList node "pad"
  let amounts := (node.ints? "pad").getD []
  require (amounts.length % 2 = 0) .oddPad
  match node.operandRank? g 0 with
  | some rank => require (amounts.length / 2 ≤ rank) (.padRank (amounts.length / 2) rank)
  | none => pure ()
  optionalNumber node "value" .padValue

/-! ## Conversions of type and copies -/

/-- A constant element type of at most 32 bits. -/
def cast : Support := do
  tensors g node 1
  match node.attr? "dtype" with
  | none => return
  | some (.dtype dtype) => require (!dtype.isWide) (.wideCast dtype)
  | some _ => throw .notDType

/-- Dropout that does nothing. -/
def dropout : Support := do
  tensors g node 1
  require (!(node.bool? "train").getD false) .training

end Support

end HybridGraph
