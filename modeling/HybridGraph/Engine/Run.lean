import HybridGraph.Engine.Network
import HybridGraph.Kernel.Movement
import HybridGraph.Kernel.Pointwise
import HybridGraph.Kernel.Product
import HybridGraph.Kernel.Reduction
/-!
# Running engines

An engine of the reference accelerator is a frozen network with its contract.  `LayerKind.run`
computes one layer and `Engine.execute` all of them, in order.  An engine of reduced precision
rounds the single-precision result of every layer to a half.
-/

namespace HybridGraph

/-- A built engine. -/
structure Engine where
  network : Network
  inputs : List EngineBinding
  outputs : List EngineBinding
  reducedPrecision : Bool
  deviceType : DeviceType

/-! ## Layers -/

/-- The function of an activation. -/
def Activation.apply : Activation → Float → Float
  | .relu => Kernel.relu
  | .sigmoid => Kernel.sigmoid
  | .tanh => Float.tanh
  | .clip low high => Kernel.clip low high
  | .leakyRelu slope => fun x => Kernel.leakyRelu x slope
  | .elu alpha => fun x => Kernel.elu x alpha 1.0 1.0

/-- The function of a unary layer. -/
def UnaryOp.apply : UnaryOp → Float → Float
  | .neg => (-·)
  | .abs => Float.abs
  | .exp => Float.exp
  | .log => Float.log
  | .sqrt => Float.sqrt
  | .erf => Kernel.erf
  | .recip => fun x => 1.0 / x

/-- The element type of a unary layer's result. -/
def UnaryOp.resultType : UnaryOp → DType → DType
  | .neg, dtype | .abs, dtype => dtype
  | _, dtype => Kernel.floatResult dtype

/-- The function of a binary layer; integers are divided downwards. -/
def BinaryOp.apply (dtype : DType) : BinaryOp → Float → Float → Float
  | .sum => (· + ·)
  | .sub => (· - ·)
  | .prod => (· * ·)
  | .div => fun a b => if dtype.isFloat then a / b else Number.floor (a / b)
  | .max => Number.larger
  | .min => Number.smaller
  | .pow => Float.pow

/-- An operand of a layer. -/
def layerOperand (operands : List Tensor) (index : Nat) : Except KernelError Tensor :=
  match operands[index]? with
  | some t => .ok t
  | none => .error (.operand index)

/-- Computes a layer. -/
def LayerKind.run (kind : LayerKind) (operands : List Tensor) : Except KernelError Tensor := do
  let operand := layerOperand operands
  match kind with
  | .constant tensor => return tensor
  | .activation function =>
    let x ← operand 0
    Kernel.map x x.dtype function.apply
  | .unary op =>
    let x ← operand 0
    Kernel.map x (op.resultType x.dtype) op.apply
  | .elementWise op =>
    let lhs ← operand 0
    let rhs ← operand 1
    let dtype := Kernel.promote lhs.dtype rhs.dtype
    Kernel.binary lhs rhs dtype (op.apply dtype)
  | .parametricRelu => Kernel.prelu (← operand 0) (← operand 1)
  | .matrixMultiply => Kernel.matmul (← operand 0) (← operand 1)
  | .pad pre post value => Kernel.pad (← operand 0) pre post value
  | .shuffle permutation target =>
    let x ← operand 0
    let x ← permutation.elim (.ok x) (Kernel.permute x)
    match target with
    | none => return x
    | some target => Kernel.reshape x (← Kernel.resolveShape x.dims target true)
  | .softmax axis =>
    let x ← operand 0
    Kernel.softmax x axis x.dtype
  | .reduce op axes keepDims =>
    let x ← operand 0
    Kernel.reduce x axes keepDims (op = .mean) x.dtype
  | .identity dtype => return (← operand 0).cast dtype

/-! ## Engines -/

namespace Engine

/-- Refuses a tensor that does not fit an input. -/
def checkInput (entry : Tensor × EngineBinding) : Except EngineFault Unit := do
  let (tensor, binding) := entry
  if tensor.dtype ≠ binding.dtype then
    throw (.inputType binding.name binding.dtype tensor.dtype)
  if !binding.shape.admits tensor.dims then
    throw (.profile binding.name tensor.dims binding.shape)

/-- Refuses tensors that do not fit the inputs. -/
def checkInputs (engine : Engine) (inputs : List Tensor) : Except EngineFault Unit := do
  if inputs.length ≠ engine.inputs.length then
    throw (.inputCount engine.inputs.length inputs.length)
  (inputs.zip engine.inputs).forM checkInput

/-- The tensors computed so far, one slot for each tensor of the network. -/
abbrev Slots := Array (Option Tensor)

/-- The tensor in a slot that must be filled. -/
def filled (slots : Slots) (tensor : TensorRef) : Except EngineFault Tensor := do
  match ← readSlot slots tensor with
  | some t => return t
  | none => throw (.unset tensor)

/-- Rounds a single-precision result to halves if the engine has reduced precision. -/
def rounded (engine : Engine) (t : Tensor) : Except EngineFault Tensor :=
  if engine.reducedPrecision && t.dtype == .f32 then
    (Kernel.map t .f32 fun x =>
      Number.widen (Number.roundToHalf (Number.narrow x))).mapError .rounding
  else .ok t

/-- Computes one layer into its slot. -/
def runLayer (engine : Engine) (slots : Slots) (layer : Layer) : Except EngineFault Slots := do
  let operands ← layer.inputs.mapM (filled slots)
  let result ← (layer.kind.run operands).mapError (.run layer.kind.label layer.name)
  writeSlot slots layer.output (some (← engine.rounded result))

/-- The tensor of an output. -/
def readOutput (slots : Slots) (output : NetworkOutput) : Except EngineFault Tensor := do
  match ← readSlot slots output.tensor with
  | some t => return t
  | none => throw (.neverComputed output.name)

/-- Fills the slots of the inputs. -/
def bindInputs (engine : Engine) (inputs : List Tensor) : Except EngineFault Slots :=
  (engine.network.inputs.zip inputs).foldlM
    (fun slots (input, tensor) => writeSlot slots input.tensor (some tensor))
    (Array.replicate engine.network.tensors.size none)

/-- Runs an engine. -/
def execute (engine : Engine) (inputs : List Tensor) : Except EngineError (List Tensor) := do
  (engine.checkInputs inputs).mapError EngineFault.plain
  let slots ← (engine.bindInputs inputs).mapError EngineFault.plain
  let slots ← engine.network.layers.zipIdx.foldlM
    (fun slots (layer, number) =>
      (engine.runLayer slots layer).mapError (EngineError.inLayer number)) slots
  (engine.network.outputs.mapM (readOutput slots)).mapError EngineFault.plain

end Engine

end HybridGraph
