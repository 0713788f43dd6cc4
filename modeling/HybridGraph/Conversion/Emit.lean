import HybridGraph.Conversion.Error
import HybridGraph.Engine.Accelerator
import HybridGraph.Kernel.Layout
/-!
# Emitting layers

The state in which nodes become layers: a network under construction, the network tensors that
stand for graph values, and the node to which each layer belongs.  A node that fails keeps the
layers it has added.
-/

namespace HybridGraph

/-- A network under construction, and what it stands for. -/
structure EmitState (A : Accelerator) where
  network : A.Network
  bound : List (ValueId × TensorRef) := []
  layerNodes : List NodeId := []

/-- The node that becomes layers, its graph, and whether 64-bit values may be narrowed. -/
structure EmitSite where
  graph : Graph
  node : Node
  truncateWide : Bool

/-- A computation that adds layers for one node. -/
abbrev Emit (A : Accelerator) := ReaderT EmitSite (ExceptT ConversionError (StateM (EmitState A)))

namespace EmitState

variable {A : Accelerator}

/-- A network without layers. -/
def start (A : Accelerator) : EmitState A := { network := A.empty }

/-- Lets a network tensor stand for a value. -/
def bind (s : EmitState A) (v : ValueId) (tensor : TensorRef) : EmitState A :=
  { s with bound := (v, tensor) :: s.bound }

/-- The network tensor of a value. -/
def tensor? (s : EmitState A) (v : ValueId) : Option TensorRef := s.bound.lookup v

/-- Takes over a grown network; its new layers belong to the node. -/
def grow (s : EmitState A) (network : A.Network) (node : NodeId) : EmitState A :=
  { s with
    network
    layerNodes := s.layerNodes ++
      List.replicate (A.layerCount network - s.layerNodes.length) node }

end EmitState

namespace Emit

variable {A : Accelerator}

/-- Stops at the node. -/
def stop {α : Type} (cause : ConversionCause) : Emit A α := do
  let site ← read
  throw ⟨site.node.id, site.node.kind, cause⟩

/-- Gives up on the node. -/
def fail {α : Type} (fault : ConversionFault) : Emit A α := stop (.failed fault)

/-- The value, or a fault. -/
def orFail {α : Type} (value? : Option α) (fault : ConversionFault) : Emit A α :=
  match value? with
  | some a => pure a
  | none => fail fault

/-- The node. -/
def node : Emit A Node := return (← read).node

/-- The network tensor of an operand. -/
def input (operand : Nat) : Emit A TensorRef := do
  let v ← orFail (← node).inputs[operand]? (.missingOperand operand)
  match (← get).tensor? v with
  | some tensor => return tensor
  | none => stop (.missingTensor v)

/-- The descriptor of a network tensor. -/
def describe (tensor : TensorRef) : Emit A TensorSig := do
  orFail (A.describe? (← get).network tensor) (.unknownTensor tensor)

/-- Adds a layer that has one result. -/
def layer (kind : LayerKind) (inputs : List TensorRef) : Emit A TensorRef := do
  let node ← node
  let s ← get
  match A.addLayer s.network kind inputs s!"{node.id.text}:{kind.label}" with
  | .error cause => stop (.engine cause)
  | .ok (network, outputs) =>
    set (s.grow network node.id)
    match outputs with
    | [tensor] => return tensor
    | _ => fail (.layerOutputs outputs.length)

/-- Adds a constant; one of 64 bits is narrowed if that is allowed. -/
def constant (tensor : Tensor) : Emit A TensorRef := do
  if !tensor.dtype.isWide then layer (.constant tensor) []
  else if (← read).truncateWide then layer (.constant (tensor.cast tensor.dtype.truncated)) []
  else fail (.wideConstant tensor.dtype)

/-- Adds a number as a constant that broadcasts against tensors like the given one. -/
def scalar (value : Float) (like : TensorSig) : Emit A TensorRef :=
  layer (.constant (.full like.dtype (List.replicate like.rank 1) value)) []

/-- Refuses tensors that are not floating. -/
def needFloat (desc : TensorSig) : Emit A Unit :=
  if desc.dtype.isFloat then pure () else fail (.needsFloat desc.dtype)

/-- Wraps a negative axis and checks it against a rank. -/
def axis (n : Int) (rank : Nat) : Emit A Nat :=
  orFail (Kernel.axisIndex n rank).toOption (.axisRange n rank)

/-- A number attribute. -/
def float (name : String) : Emit A Float := do
  orFail ((← node).float? name) (.missingNumber name)

/-- An attribute that is a list of integers. -/
def ints (name : String) : Emit A (List Int) := do
  orFail ((← node).ints? name) (.missingIntList name)

/-- Whether a descriptor fits a declared tensor type. -/
def fits (truncateWide : Bool) (declared : TensorType) (desc : TensorSig) : Bool :=
  (declared.dtype.all fun t => t == desc.dtype || (truncateWide && t.truncated == desc.dtype)) &&
    declared.rank?.all (· == desc.rank)

/-- Lets a network tensor stand for a result of the node. -/
def bindOutput (v : ValueId) (tensor : TensorRef) : Emit A Unit := do
  let site ← read
  let desc ← describe tensor
  let type := site.graph.typeOf v
  if (site.graph.tensorType? v).all (fits site.truncateWide · desc) then
    modify fun s => s.bind v tensor
  else stop (.outputMismatch v type desc)

/-- Lets network tensors stand for the results of the node, one for each. -/
def bindOutputs (tensors : List TensorRef) : Emit A Unit := do
  let outputs := (← node).outputs
  if tensors.length ≠ outputs.length then stop (.outputCount outputs.length tensors.length)
  else (outputs.zip tensors).forM fun (v, tensor) => bindOutput v tensor

end Emit

end HybridGraph
