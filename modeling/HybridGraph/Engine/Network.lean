import HybridGraph.Engine.Error
/-!
# Networks

A network of the reference accelerator: layers in the order in which they were added, and the
descriptor of every tensor.  `Network.addInput`, `Network.addLayer` and `Network.markOutput` grow
it and refuse what does not fit; `Network.concreteShapes` infers all descriptors again once the
extents of the inputs are known.
-/

namespace HybridGraph

/-- An input of a network. -/
structure NetworkInput where
  name : String
  tensor : TensorRef
  dtype : DType
  shape : ShapeSpec

/-- An output of a network. -/
structure NetworkOutput where
  name : String
  tensor : TensorRef

/-- A network. -/
structure Network where
  tensors : Array TensorSig := #[]
  inputs : List NetworkInput := []
  layers : List Layer := []
  outputs : List NetworkOutput := []

/-- Reads the slot of a tensor. -/
def readSlot {α : Type} (slots : Array α) (tensor : TensorRef) : Except EngineFault α :=
  match slots[tensor.index]? with
  | some a => .ok a
  | none => .error (.slot tensor slots.size)

/-- Writes the slot of a tensor. -/
def writeSlot {α : Type} (slots : Array α) (tensor : TensorRef) (value : α) :
    Except EngineFault (Array α) :=
  if h : tensor.index < slots.size then .ok (slots.set tensor.index value h)
  else .error (.slot tensor slots.size)

namespace Network

/-! ## Growing -/

/-- The descriptor of a tensor. -/
def describe? (n : Network) (tensor : TensorRef) : Option TensorSig := n.tensors[tensor.index]?

/-- The descriptor of a tensor that must belong to the network. -/
def describe (n : Network) (tensor : TensorRef) : Except EngineFault TensorSig :=
  match n.describe? tensor with
  | some d => .ok d
  | none => .error (.foreignTensor tensor)

/-- Adds a tensor. -/
def pushTensor (n : Network) (desc : TensorSig) : Network × TensorRef :=
  ({ n with tensors := n.tensors.push desc }, ⟨n.tensors.size⟩)

/-- Adds an input of a new name whose shape range is in order. -/
def addInput (n : Network) (name : String) (dtype : DType) (shape : ShapeSpec) :
    Except EngineError (Network × TensorRef) := do
  if n.inputs.any (·.name == name) then throw (EngineFault.duplicateInput name).plain
  shape.check.mapError fun cause => (EngineFault.inputRange name cause).plain
  let (n, tensor) := n.pushTensor ⟨dtype, shape.dimensions⟩
  return ({ n with inputs := n.inputs ++ [⟨name, tensor, dtype, shape⟩] }, tensor)

/-- Adds a layer over tensors of the network. -/
def addLayer (n : Network) (kind : LayerKind) (inputs : List TensorRef) (name : String) :
    Except EngineError (Network × List TensorRef) := do
  let blame := EngineError.inLayer n.layers.length
  let operands ← (inputs.mapM n.describe).mapError blame
  let desc ← (kind.infer operands).mapError fun cause => blame (.layer kind.label name cause)
  let (n, output) := n.pushTensor desc
  return ({ n with layers := n.layers ++ [⟨name, kind, inputs, output⟩] }, [output])

/-- Makes a tensor of the network an output of a new name. -/
def markOutput (n : Network) (tensor : TensorRef) (name : String) : Except EngineError Network := do
  let _ ← (n.describe tensor).mapError EngineFault.plain
  if n.outputs.any (·.name == name) then throw (EngineFault.duplicateOutput name).plain
  return { n with outputs := n.outputs ++ [⟨name, tensor⟩] }

/-! ## Concrete shapes -/

/-- Fixes the extents of one input. -/
def fixInput (tensors : Array TensorSig) (entry : NetworkInput × List Nat) :
    Except EngineError (Array TensorSig) :=
  (writeSlot tensors entry.1.tensor (.of entry.1.dtype entry.2)).mapError EngineFault.plain

/-- Infers the result of one layer again. -/
def inferLayer (tensors : Array TensorSig) (entry : Layer × Nat) :
    Except EngineError (Array TensorSig) := do
  let (layer, number) := entry
  let blame := EngineError.inLayer number
  let operands ← (layer.inputs.mapM (readSlot tensors)).mapError blame
  let desc ← (layer.kind.infer operands).mapError fun cause => blame (.inference cause)
  (writeSlot tensors layer.output desc).mapError blame

/-- All descriptors, with the extents of the inputs given. -/
def concreteShapes (n : Network) (inputs : List (List Nat)) :
    Except EngineError (Array TensorSig) := do
  if inputs.length ≠ n.inputs.length then
    throw (EngineFault.shapeCount n.inputs.length inputs.length).plain
  let tensors ← (n.inputs.zip inputs).foldlM fixInput n.tensors
  n.layers.zipIdx.foldlM inferLayer tensors

end Network

end HybridGraph
