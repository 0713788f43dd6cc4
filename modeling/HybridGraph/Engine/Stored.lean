import HybridGraph.Digest
import HybridGraph.Engine.Run
import HybridGraph.Json.Printer
import HybridGraph.Tensor.Stored
/-!
# Engines as stored records

`Engine.saveWith` writes an engine as the bytes of a JSON text and `Engine.loadWith` reads one back,
whatever writes and reads the text; `Engine.save` and `Engine.load` use the texts of this library.
Reading takes the record as it stands: its layers may name tensors that it does not have.
-/

namespace HybridGraph

/-- The record of a tensor name. -/
def TensorRef.toJson (r : TensorRef) : Json := .nat r.index

/-- Reads a tensor name. -/
def TensorRef.ofJson? (j : Json) : Option TensorRef := j.index?.map TensorRef.mk

/-- The record of a descriptor. -/
def TensorSig.toJson (d : TensorSig) : Json :=
  .object [("dtype", d.dtype.toJson), ("dims", .list Dimension.toJson d.dims)]

/-- Reads a descriptor. -/
def TensorSig.ofJson? (j : Json) : Option TensorSig := do
  let r ← Json.record? ["dtype", "dims"] j
  return ⟨← r.required "dtype" DType.ofJson?, ← r.required "dims" (Json.list? Dimension.ofJson?)⟩

/-! ## Layers -/

/-- The record of an activation. -/
def Activation.toJson : Activation → Json
  | .relu => .string "Relu"
  | .sigmoid => .string "Sigmoid"
  | .tanh => .string "Tanh"
  | .clip low high => .tagged "Clip" (.object [("min", .double low), ("max", .double high)])
  | .leakyRelu slope => .tagged "LeakyRelu" (.object [("alpha", .double slope)])
  | .elu alpha => .tagged "Elu" (.object [("alpha", .double alpha)])

/-- Reads an activation. -/
def Activation.ofJson? (j : Json) : Option Activation := do
  let alpha (payload : Json) : Option Float := do
    (← Json.record? ["alpha"] payload).required "alpha" Json.double?
  match ← Json.variant? j with
  | ("Relu", none) | ("Relu", some .null) => return .relu
  | ("Sigmoid", none) | ("Sigmoid", some .null) => return .sigmoid
  | ("Tanh", none) | ("Tanh", some .null) => return .tanh
  | ("Clip", some payload) =>
    let r ← Json.record? ["min", "max"] payload
    return .clip (← r.required "min" Json.double?) (← r.required "max" Json.double?)
  | ("LeakyRelu", some payload) => return .leakyRelu (← alpha payload)
  | ("Elu", some payload) => return .elu (← alpha payload)
  | _ => none

/-- The record of a kind of layer. -/
def LayerKind.toJson : LayerKind → Json
  | .constant tensor => .tagged "Constant" tensor.toJson
  | .activation function => .tagged "Activation" function.toJson
  | .unary op => .tagged "Unary" (.string op.tag)
  | .elementWise op => .tagged "ElementWise" (.string op.tag)
  | .parametricRelu => .string "ParametricRelu"
  | .matrixMultiply => .string "MatrixMultiply"
  | .pad pre post value =>
    .tagged "Pad" (.object [("pre", .ints pre), ("post", .ints post), ("value", .double value)])
  | .shuffle permutation target =>
    .tagged "Shuffle" (.object [("permutation", .option .nats permutation),
      ("reshape", .option .ints target)])
  | .softmax axis => .tagged "SoftMax" (.object [("axis", .nat axis)])
  | .reduce op axes keepDims =>
    .tagged "Reduce" (.object [("op", .string op.tag), ("axes", .nats axes),
      ("keep_dims", .bool keepDims)])
  | .identity dtype => .tagged "Identity" (.object [("dtype", dtype.toJson)])

/-- Reads a kind of layer. -/
def LayerKind.ofJson? (j : Json) : Option LayerKind := do
  let integers := Json.list? (Json.int? 64)
  match ← Json.variant? j with
  | ("Constant", some payload) => return .constant (← Tensor.ofJson? payload)
  | ("Activation", some payload) => return .activation (← Activation.ofJson? payload)
  | ("Unary", some payload) => return .unary (← Json.unit? UnaryOp.ofTag? payload)
  | ("ElementWise", some payload) => return .elementWise (← Json.unit? BinaryOp.ofTag? payload)
  | ("ParametricRelu", none) | ("ParametricRelu", some .null) => return .parametricRelu
  | ("MatrixMultiply", none) | ("MatrixMultiply", some .null) => return .matrixMultiply
  | ("Pad", some payload) =>
    let r ← Json.record? ["pre", "post", "value"] payload
    return .pad (← r.required "pre" integers) (← r.required "post" integers)
      (← r.required "value" Json.double?)
  | ("Shuffle", some payload) =>
    let r ← Json.record? ["permutation", "reshape"] payload
    return .shuffle (← r.optional "permutation" extents?) (← r.optional "reshape" integers)
  | ("SoftMax", some payload) =>
    return .softmax (← (← Json.record? ["axis"] payload).required "axis" Json.size?)
  | ("Reduce", some payload) =>
    let r ← Json.record? ["op", "axes", "keep_dims"] payload
    return .reduce (← r.required "op" (Json.unit? ReduceOp.ofTag?)) (← r.required "axes" extents?)
      (← r.required "keep_dims" Json.bool?)
  | ("Identity", some payload) =>
    return .identity (← (← Json.record? ["dtype"] payload).required "dtype" DType.ofJson?)
  | _ => none

/-- The record of a layer. -/
def Layer.toJson (layer : Layer) : Json :=
  .object [("name", .string layer.name), ("kind", layer.kind.toJson),
    ("inputs", .list TensorRef.toJson layer.inputs), ("output", layer.output.toJson)]

/-- Reads a layer. -/
def Layer.ofJson? (j : Json) : Option Layer := do
  let r ← Json.record? ["name", "kind", "inputs", "output"] j
  return {
    name := ← r.required "name" Json.string?
    kind := ← r.required "kind" LayerKind.ofJson?
    inputs := ← r.required "inputs" (Json.list? TensorRef.ofJson?)
    output := ← r.required "output" TensorRef.ofJson? }

/-! ## Networks -/

/-- The record of a network input. -/
def NetworkInput.toJson (input : NetworkInput) : Json :=
  .object [("name", .string input.name), ("tensor", input.tensor.toJson),
    ("dtype", input.dtype.toJson), ("shape", input.shape.toJson)]

/-- Reads a network input. -/
def NetworkInput.ofJson? (j : Json) : Option NetworkInput := do
  let r ← Json.record? ["name", "tensor", "dtype", "shape"] j
  return {
    name := ← r.required "name" Json.string?
    tensor := ← r.required "tensor" TensorRef.ofJson?
    dtype := ← r.required "dtype" DType.ofJson?
    shape := ← r.required "shape" ShapeSpec.ofJson? }

/-- The record of a network output. -/
def NetworkOutput.toJson (output : NetworkOutput) : Json :=
  .object [("name", .string output.name), ("tensor", output.tensor.toJson)]

/-- Reads a network output. -/
def NetworkOutput.ofJson? (j : Json) : Option NetworkOutput := do
  let r ← Json.record? ["name", "tensor"] j
  return ⟨← r.required "name" Json.string?, ← r.required "tensor" TensorRef.ofJson?⟩

/-- The record of a network. -/
def Network.toJson (n : Network) : Json :=
  .object [("tensors", .list TensorSig.toJson n.tensors.toList),
    ("inputs", .list NetworkInput.toJson n.inputs), ("layers", .list Layer.toJson n.layers),
    ("outputs", .list NetworkOutput.toJson n.outputs)]

/-- Reads a network. -/
def Network.ofJson? (j : Json) : Option Network := do
  let r ← Json.record? ["tensors", "inputs", "layers", "outputs"] j
  return {
    tensors := (← r.required "tensors" (Json.list? TensorSig.ofJson?)).toArray
    inputs := ← r.required "inputs" (Json.list? NetworkInput.ofJson?)
    layers := ← r.required "layers" (Json.list? Layer.ofJson?)
    outputs := ← r.required "outputs" (Json.list? NetworkOutput.ofJson?) }

/-! ## Engines -/

/-- The record of a binding. -/
def EngineBinding.toJson (b : EngineBinding) : Json :=
  .object [("name", .string b.name), ("dtype", b.dtype.toJson), ("shape", b.shape.toJson)]

/-- Reads a binding. -/
def EngineBinding.ofJson? (j : Json) : Option EngineBinding := do
  let r ← Json.record? ["name", "dtype", "shape"] j
  return {
    name := ← r.required "name" Json.string?
    dtype := ← r.required "dtype" DType.ofJson?
    shape := ← r.required "shape" ShapeSpec.ofJson? }

namespace Engine

/-- The record of an engine. -/
def toJson (engine : Engine) : Json :=
  .object [("network", engine.network.toJson), ("inputs", .list EngineBinding.toJson engine.inputs),
    ("outputs", .list EngineBinding.toJson engine.outputs),
    ("reduced_precision", .bool engine.reducedPrecision),
    ("device_type", .string engine.deviceType.tag)]

/-- Reads an engine. -/
def ofJson? (j : Json) : Option Engine := do
  let r ← Json.record? ["network", "inputs", "outputs", "reduced_precision", "device_type"] j
  return {
    network := ← r.required "network" Network.ofJson?
    inputs := ← r.required "inputs" (Json.list? EngineBinding.ofJson?)
    outputs := ← r.required "outputs" (Json.list? EngineBinding.ofJson?)
    reducedPrecision := ← r.required "reduced_precision" Json.bool?
    deviceType := ← r.required "device_type" (Json.unit? DeviceType.ofTag?) }

/-- The mark of an engine file. -/
def fileMagic : String := "splice-ref-engine"

/-- The version of the engine files written here. -/
def fileVersion : Nat := 1

/-- The file of an engine. -/
def fileJson (engine : Engine) : Json :=
  .object [("magic", .string fileMagic), ("version", .nat fileVersion), ("plan", engine.toJson)]

/-- Mark, version and engine of a file. -/
def ofFileJson? (j : Json) : Option (String × Nat × Engine) := do
  let r ← Json.record? ["magic", "version", "plan"] j
  return (← r.required "magic" Json.string?, ← r.required "version" Json.index?,
    ← r.required "plan" ofJson?)

section

variable (S : Json.Serializer)

/-- The bytes of an engine. -/
def saveWith (engine : Engine) : Digest.Bytes := (S.write engine.fileJson).toUTF8.toList

/-- Reads the file of an engine. -/
def readWith (bytes : Digest.Bytes) : Except EngineFault Engine := do
  let some (magic, version, engine) :=
    (String.fromUTF8? ⟨bytes.toArray⟩).bind fun text => (S.read text).bind ofFileJson?
    | throw .malformed
  if magic ≠ fileMagic then throw (.magic magic)
  if version ≠ fileVersion then throw (.version version fileVersion)
  return engine

/-- Reads the file of an engine that was built for the kind of the device. -/
def loadWith (bytes : Digest.Bytes) (device : Device) : Except EngineError Engine := do
  let engine ← (readWith S bytes).mapError EngineFault.plain
  if engine.deviceType ≠ device.type then
    throw (EngineFault.wrongDevice engine.deviceType device).plain
  return engine

end

/-- The bytes of an engine, its text without blanks. -/
def save (engine : Engine) : Digest.Bytes := engine.saveWith .compact

/-- Reads the text of an engine. -/
def read (bytes : Digest.Bytes) : Except EngineFault Engine := readWith .compact bytes

/-- Reads the text of an engine that was built for the kind of the device. -/
def load (bytes : Digest.Bytes) (device : Device) : Except EngineError Engine :=
  loadWith .compact bytes device

end Engine

end HybridGraph
