import HybridGraph.Engine.Inference
import HybridGraph.Kernel.Error
import HybridGraph.Settings.Device
/-!
# Engine errors

Why a network, a builder or an engine refuses, and the layer to blame, if one can be named.
-/

namespace HybridGraph

/-- What an accelerator objects to.  `custom` is for accelerators with reasons of their own, and
`slot` stands for a tensor that a network names without having it. -/
inductive EngineFault where
  | duplicateInput (name : String)
  | inputRange (name : String) (cause : RangeError)
  | foreignTensor (tensor : TensorRef)
  | layer (label name : String) (cause : InferenceError)
  | inference (cause : InferenceError)
  | duplicateOutput (name : String)
  | shapeCount (expected given : Nat)
  | slot (tensor : TensorRef) (count : Nat)
  | capability
  | precision (device : Device)
  | noOutputs
  | workspace (name : String) (needed limit : Nat)
  | openShape (output : String)
  | malformed
  | magic (found : String)
  | version (found expected : Nat)
  | wrongDevice (builtFor : DeviceType) (device : Device)
  | inputCount (expected given : Nat)
  | inputType (name : String) (expected found : DType)
  | profile (name : String) (dims : List Nat) (shape : ShapeSpec)
  | unset (tensor : TensorRef)
  | run (label name : String) (cause : KernelError)
  | rounding (cause : KernelError)
  | neverComputed (output : String)
  | custom (text : String)

/-- The wording of an objection. -/
def EngineFault.message : EngineFault → String
  | .duplicateInput name => s!"duplicate network input `{name}`"
  | .inputRange name cause => s!"input `{name}`: {cause.message}"
  | .foreignTensor tensor => s!"tensor {tensor.index} is not part of this network"
  | .layer label name cause => s!"{label} `{name}`: {cause.message}"
  | .inference cause => cause.message
  | .duplicateOutput name => s!"duplicate network output `{name}`"
  | .shapeCount expected given => s!"network takes {expected} inputs, {given} shapes given"
  | .slot tensor count => s!"tensor {tensor.index} of {count} does not exist"
  | .capability => "DlaStandalone capability needs a DLA device"
  | .precision device =>
    s!"{device.text} only runs half or int8 layers; " ++
      "enable half/int8 precision or allow GPU fallback"
  | .noOutputs => "network marks no outputs"
  | .workspace name needed limit =>
    s!"layer `{name}` needs {needed} bytes of workspace, limit is {limit}"
  | .openShape output => s!"output `{output}` has no static shape"
  | .malformed => "malformed engine"
  | .magic found => s!"not a reference engine (magic `{found}`)"
  | .version found expected =>
    s!"engine format version {found} is not supported (expected {expected})"
  | .wrongDevice builtFor device =>
    s!"engine was built for {builtFor.tag}, cannot load it on {device.text}"
  | .inputCount expected given => s!"engine takes {expected} inputs, {given} given"
  | .inputType name expected found => s!"input `{name}` expects {expected.name}, got {found.name}"
  | .profile name dims shape =>
    s!"input `{name}` shape {Text.natList dims} is outside the profile {shape.text}"
  | .unset tensor => s!"tensor {tensor.index} is unset"
  | .run label name cause => s!"{label} `{name}`: {cause.message}"
  | .rounding cause => cause.message
  | .neverComputed output => s!"output `{output}` was never computed"
  | .custom text => text

/-- An objection and the number of the layer to blame. -/
structure EngineError where
  fault : EngineFault
  layer : Option Nat := none

namespace EngineError

/-- The wording of an error. -/
def message (e : EngineError) : String := e.fault.message

/-- Blames a layer. -/
def inLayer (layer : Nat) (fault : EngineFault) : EngineError := ⟨fault, some layer⟩

end EngineError

/-- An objection without a layer to blame. -/
def EngineFault.plain (fault : EngineFault) : EngineError := ⟨fault, none⟩

end HybridGraph
