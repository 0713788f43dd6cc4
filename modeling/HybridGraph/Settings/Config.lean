import HybridGraph.Graph.OpKind
import HybridGraph.Lowering.Basic
import HybridGraph.Number.Decimal
import HybridGraph.Settings.Builder
import HybridGraph.Tensor.InputSpec
/-!
# Compilation options

All options of one compilation.  `CompileConfig.check` refuses options that contradict each other
before any work starts.
-/

namespace HybridGraph

/-! ## Errors -/

/-- Options that full compilation leaves without effect. -/
inductive IdleOption where
  | excludedOps | excludedModules | minBlockSize
deriving DecidableEq

/-- The name of an option in stored records. -/
def IdleOption.name : IdleOption → String
  | .excludedOps => "torch_executed_ops"
  | .excludedModules => "torch_executed_modules"
  | .minBlockSize => "min_block_size"

/-- What contradicts between a graph input and its contract. -/
inductive InputMismatch where
  | notTensor
  | dtype (declared given : DType)
  | rank (declared given : Nat)
deriving DecidableEq

/-- The wording of a mismatch. -/
def InputMismatch.message : InputMismatch → String
  | .notTensor => "graph input is not a tensor"
  | .dtype declared given => s!"graph declares {declared.name}, spec says {given.name}"
  | .rank declared given => s!"graph declares rank {declared}, spec has rank {given}"

/-- Why options, or options and a graph together, are refused. -/
inductive ConfigError where
  | unknownPrecision (token : String)
  | unknownDeviceType (token : String)
  | unknownCapability (token : String)
  | unknownKind (token : String)
  | inputSpec (input : Nat) (cause : SpecError)
  | zeroMinBlockSize
  | zeroBatchSize
  | noPrecision
  | threshold (value : Float)
  | idleOption (option : IdleOption)
  | inputCount (inputs specs : Nat)
  | inputMismatch (input : Nat) (cause : InputMismatch)
  | notSingleSegment (segments fallback : Nat)

/-- The wording for a word that is no member of a closed set. -/
def unknownTokenMessage (what token choices : String) : String :=
  s!"unknown {what} `{token}`, options are [ {choices} ]"

/-- The wording of a refusal. -/
def ConfigError.message : ConfigError → String
  | .unknownPrecision token =>
    unknownTokenMessage "precision" token "float | half | int8 | bool"
  | .unknownDeviceType token => unknownTokenMessage "device type" token "gpu | dla"
  | .unknownCapability token =>
    unknownTokenMessage "engine capability" token "standard | safety | dla_standalone"
  | .unknownKind token =>
    unknownTokenMessage "op kind" token "aten::* | prim::* kinds known to the graph IR"
  | .inputSpec input cause => s!"input spec {input}: {cause.message}"
  | .zeroMinBlockSize => "min_block_size must be at least 1"
  | .zeroBatchSize => "max_batch_size must be at least 1"
  | .noPrecision => "at least one precision must be enabled"
  | .threshold value =>
    let shown := Number.FloatLayout.plain.double value
    s!"fidelity threshold must be a positive finite number, got {shown}"
  | .idleOption option =>
    s!"require_full_compilation is enabled, so {option.name} has no effect and is rejected"
  | .inputCount inputs specs =>
    s!"graph has {inputs} inputs but {specs} input specs were given"
  | .inputMismatch input cause =>
    s!"graph input {input} cannot be described by an input spec: {cause.message}"
  | .notSingleSegment segments fallback =>
    "saving a single engine needs a graph that is fully supported in one segment; " ++
      s!"the partition has {segments} segment(s) and {fallback} fallback node(s)"

/-! ## Words -/

/-- Reads a precision. -/
def Precision.parse (text : String) : Except ConfigError Precision :=
  match lookupToken Precision.spellings text with
  | some p => .ok p
  | none => .error (.unknownPrecision text)

/-- Reads a kind of device. -/
def DeviceType.parse (text : String) : Except ConfigError DeviceType :=
  match lookupToken DeviceType.spellings text with
  | some t => .ok t
  | none => .error (.unknownDeviceType text)

/-- Reads a capability class. -/
def Capability.parse (text : String) : Except ConfigError Capability :=
  match lookupToken Capability.spellings text with
  | some c => .ok c
  | none => .error (.unknownCapability text)

/-! ## Options -/

/-- The options of a compilation.  The precisions stand in their order, each once. -/
structure CompileConfig where
  precisions : List Precision := [.float]
  device : Device := .standard
  capability : Capability := .standard
  minBlockSize : Option Nat := none
  excludedOps : List String := []
  excludedModules : List String := []
  calibrator : Option Calibrator := none
  workspaceSize : Option Nat := none
  minTimingIters : Nat := 2
  avgTimingIters : Nat := 1
  maxBatchSize : Option Nat := none
  debug : Bool := false
  strictTypes : Bool := false
  sparseWeights : Bool := false
  disableTf32 : Bool := false
  truncateWide : Bool := false
  fullCompilation : Bool := false
  inputSpecs : List InputSpec := []
  lowering : LoweringOptions := {}
  threshold : Float := 2e-5
  skipFidelity : Bool := false

/-- Smallest segment worth an engine, unless the options say otherwise. -/
def defaultMinBlockSize : Nat := 3

namespace CompileConfig

/-- What the builder of engines is told. -/
def builder (c : CompileConfig) : BuilderConfig where
  precisions := c.precisions
  device := c.device
  capability := c.capability
  workspaceSize := c.workspaceSize
  minTimingIters := c.minTimingIters
  avgTimingIters := c.avgTimingIters
  maxBatchSize := c.maxBatchSize
  debug := c.debug
  strictTypes := c.strictTypes
  sparseWeights := c.sparseWeights
  disableTf32 := c.disableTf32
  calibrator := c.calibrator

/-- Refuses contracts whose ranges are out of order. -/
def checkInputs (c : CompileConfig) : Except ConfigError Unit :=
  c.inputSpecs.zipIdx.forM fun (spec, input) => spec.check.mapError (.inputSpec input)

/-- Refuses excluded kinds that do not exist. -/
def checkExcluded (c : CompileConfig) : Except ConfigError Unit :=
  c.excludedOps.forM fun name =>
    ((OpKind.parse name).mapError fun _ => .unknownKind name).map fun _ => ()

/-- Refuses options that full compilation leaves without effect. -/
def checkIdle (c : CompileConfig) : Except ConfigError Unit := do
  if c.fullCompilation then
    if !c.excludedOps.isEmpty then throw (.idleOption .excludedOps)
    if !c.excludedModules.isEmpty then throw (.idleOption .excludedModules)
    if c.minBlockSize.isSome then throw (.idleOption .minBlockSize)

/-- Refuses contradictory options. -/
def check (c : CompileConfig) : Except ConfigError Unit := do
  if c.precisions.isEmpty then throw .noPrecision
  if c.minBlockSize = some 0 then throw .zeroMinBlockSize
  if c.maxBatchSize = some 0 then throw .zeroBatchSize
  if !(c.threshold.isFinite && c.threshold > 0.0) then throw (.threshold c.threshold)
  c.checkInputs
  c.checkExcluded
  c.checkIdle

/-- The smallest segment that the partition keeps; full compilation keeps every one. -/
def smallestSegment (c : CompileConfig) : Nat :=
  if c.fullCompilation then 1 else c.minBlockSize.getD defaultMinBlockSize

/-- The kinds that stay under the interpreter. -/
def excludedKinds (c : CompileConfig) : List OpKind :=
  OpKind.sorted (c.excludedOps.filterMap fun name => (OpKind.parse name).toOption)

/-- Whether full single precision is the only one enabled, so that results must agree with the
graph as it was. -/
def keepsPrecision (c : CompileConfig) : Bool := c.precisions == [.float]

end CompileConfig

end HybridGraph
