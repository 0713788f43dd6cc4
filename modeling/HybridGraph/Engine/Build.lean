import HybridGraph.Engine.Run
import HybridGraph.Settings.Builder
/-!
# Building engines

`Network.build` freezes a network.  It refuses devices that cannot run the enabled precisions,
networks without outputs and networks that need more memory than allowed, and measures the outputs
at the smallest, typical and largest inputs.
-/

namespace HybridGraph

/-- Refuses precisions that the device cannot run; fixed-function cores run halves and bytes. -/
def BuilderConfig.checkDevice (c : BuilderConfig) : Except EngineFault Unit := do
  let fixedFunction := c.device.type == .dla
  if c.capability = .dlaStandalone ∧ !fixedFunction then throw .capability
  let reduced := c.precisions.contains .half || c.precisions.contains .int8
  if fixedFunction && !reduced && !c.device.allowFallback then throw (.precision c.device)

namespace Network

/-- The extents of all inputs at one end of their ranges. -/
def inputExtents (n : Network) (pick : ShapeSpec → List Nat) : List (List Nat) :=
  n.inputs.map fun input => pick input.shape

/-- Bytes of a tensor; one with unknown extents counts as empty. -/
def byteCount (desc : TensorSig) : Nat :=
  ((fixedExtents? desc.dims).map elementCount).getD 0 * desc.dtype.byteSize

/-- Adds the bytes of one layer's result to a sum that may not pass the limit. -/
def addBytes (tensors : Array TensorSig) (limit : Option Nat) (total : Nat)
    (entry : Layer × Nat) : Except EngineError Nat := do
  let (layer, number) := entry
  let desc ← (readSlot tensors layer.output).mapError EngineFault.plain
  let total := total + byteCount desc
  match limit with
  | some limit =>
    if limit < total then throw (.inLayer number (.workspace layer.name total limit))
    return total
  | none => return total

/-- Bytes of all layer results at the largest inputs. -/
def workspace (n : Network) (limit : Option Nat) : Except EngineError Nat := do
  let tensors ← n.concreteShapes (n.inputExtents ShapeSpec.max)
  n.layers.zipIdx.foldlM (addBytes tensors limit) 0

/-- The extents of an output whose extents must be known. -/
def outputExtents (tensors : Array TensorSig) (output : NetworkOutput) :
    Except EngineFault (List Nat) := do
  match fixedExtents? (← readSlot tensors output.tensor).dims with
  | some dims => return dims
  | none => throw (.openShape output.name)

/-- The extents of all outputs at one end of the input ranges. -/
def measureOutputs (n : Network) (pick : ShapeSpec → List Nat) :
    Except EngineError (List (List Nat)) := do
  let tensors ← n.concreteShapes (n.inputExtents pick)
  (n.outputs.mapM (outputExtents tensors)).mapError EngineFault.plain

/-- The contract of every output. -/
def outputBindings (n : Network) : Except EngineError (List EngineBinding) := do
  let lo ← n.measureOutputs ShapeSpec.min
  let mid ← n.measureOutputs ShapeSpec.opt
  let hi ← n.measureOutputs ShapeSpec.max
  (n.outputs.zip (lo.zip (mid.zip hi))).mapM fun (output, lo, mid, hi) => do
    let desc ← (readSlot n.tensors output.tensor).mapError EngineFault.plain
    return ⟨output.name, desc.dtype, .ofMeasured lo mid hi⟩

/-- The contract of every input. -/
def inputBindings (n : Network) : List EngineBinding :=
  n.inputs.map fun input => ⟨input.name, input.dtype, input.shape⟩

/-- Builds an engine. -/
def build (n : Network) (c : BuilderConfig) : Except EngineError Engine := do
  c.checkDevice.mapError EngineFault.plain
  if n.outputs.isEmpty then throw EngineFault.noOutputs.plain
  let _ ← n.workspace c.workspaceSize
  let outputs ← n.outputBindings
  return {
    network := n
    inputs := n.inputBindings
    outputs
    reducedPrecision := c.precisions.contains .half
    deviceType := c.device.type }

end Network

end HybridGraph
