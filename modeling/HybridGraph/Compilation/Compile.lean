import HybridGraph.Compilation.DeviceLease
import HybridGraph.Fidelity.Check
import HybridGraph.Lowering.Pipeline
import HybridGraph.Partition.Demotion
import HybridGraph.Program.Assembly
import HybridGraph.Shapes.Analysis
/-!
# Compiling graphs

A compilation checks the options, lowers the graph, measures shapes, partitions, builds an engine
for each segment and puts the engines into the graph.  `Compiler.compile` answers the program
and how far it agrees with the graph; `Compiler.convertToEngine` answers the bytes of one engine
for a graph that is a single segment.
-/

namespace HybridGraph

/-! ## Errors -/

/-- Why a compilation failed. -/
inductive CompileError where
  | config (cause : ConfigError)
  | device (cause : DeviceError)
  | lowering (cause : LoweringError)
  | partition (cause : PartitionError)
  | build (cause : BuildError)
  | assembly (cause : AssemblyError)
  | engine (cause : EngineError)

/-- The wording of an error. -/
def CompileError.message : CompileError → String
  | .config cause => s!"invalid configuration: {cause.message}"
  | .device cause => cause.message
  | .lowering cause => s!"lowering failed: {cause.message}"
  | .partition cause => s!"partitioning failed: {cause.message}"
  | .build cause => s!"engine build failed: {cause.message}"
  | .assembly cause => s!"assembling the program failed: {cause.message}"
  | .engine cause => s!"backend: {cause.message}"

/-! ## Contracts of inputs -/

namespace Graph

/-- Refuses a contract that contradicts the declared type of its input. -/
def checkContract (g : Graph) (entry : (ValueId × InputSpec) × Nat) : Except ConfigError Unit := do
  let ((v, spec), input) := entry
  let some declared := g.tensorType? v | throw (.inputMismatch input .notTensor)
  if let some dtype := declared.dtype then
    if dtype ≠ spec.dtype then throw (.inputMismatch input (.dtype dtype spec.dtype))
  if let some rank := declared.rank? then
    if rank ≠ spec.shape.rank then throw (.inputMismatch input (.rank rank spec.shape.rank))

/-- Refuses contracts that do not fit the inputs, one for each. -/
def checkContracts (g : Graph) (specs : List InputSpec) : Except ConfigError Unit := do
  if g.inputs.length ≠ specs.length then throw (.inputCount g.inputs.length specs.length)
  (g.inputs.zip specs).zipIdx.forM g.checkContract

end Graph

/-! ## Compilations -/

/-- A lowered graph with its plan and the measured shapes. -/
structure Prepared where
  lowered : Graph
  shapes : ShapeTable
  plan : Plan

/-- What a compilation answers. -/
structure Compilation (A : Accelerator) where
  program : HybridProgram A
  plan : Plan
  lowered : Graph
  fidelity : FidelityOutcome

/-- A compiler: the converters, the interpreter for all other nodes, and the cap of repeated
lowering steps. -/
structure Compiler (A : Accelerator) where
  registry : Registry A
  interpret : Interpreter
  cap : Nat := Step.defaultCap

namespace Compiler

variable {A : Accelerator} (compiler : Compiler A)

/-- Lowers a graph after the options have been checked. -/
def lower (g : Graph) (options : LoweringOptions) : Except CompileError Graph :=
  let (lowered, result) := g.lower compiler.cap options
  (result.mapError .lowering).map fun _ => lowered

/-- Refuses nodes without converters if the whole graph is to be compiled. -/
def checkFull (g : Graph) (c : CompileConfig) : Except PartitionError Unit :=
  let violations := (compiler.registry.unsupported g).map fun u : UnsupportedNode =>
    (⟨u.node, u.kind, .unsupported u.reason.message⟩ : Violation)
  if c.fullCompilation && !violations.isEmpty then .error (.requiresFallback violations) else .ok ()

/-- Checks, lowers, measures and partitions. -/
def prepare (g : Graph) (c : CompileConfig) : Except CompileError Prepared := do
  c.check.mapError .config
  (g.checkContracts c.inputSpecs).mapError .config
  let lowered ← compiler.lower g c.lowering
  let (shapes, lowered) := lowered.measured compiler.interpret c.inputSpecs
  (compiler.checkFull lowered c).mapError .partition
  let plan ← (lowered.partition compiler.registry (.ofConfig c) (some shapes)).mapError .partition
  (plan.validate lowered).mapError .partition
  return ⟨lowered, shapes, plan⟩

/-- The builder of segments of a prepared graph. -/
def builder (c : CompileConfig) (p : Prepared) : SegmentBuilder A :=
  ⟨compiler.registry, c, p.lowered, p.shapes⟩

/-- Builds the engines of a prepared graph and puts them into it. -/
def link (c : CompileConfig) (p : Prepared) : Except CompileError (HybridProgram A) := do
  let engines ← ((compiler.builder c p).compileAll [] p.plan.segments).mapError .build
  (HybridProgram.assemble p.lowered p.plan engines).mapError .assembly

/-- Prepares and links a graph once the device is held. -/
def linkHeld (g : Graph) (c : CompileConfig) :
    Except CompileError (Prepared × HybridProgram A) := do
  let p ← compiler.prepare g c
  return (p, ← compiler.link c p)

/-- A linked program, compared with the graph it was made from. -/
def compared (g : Graph) (c : CompileConfig) (made : Prepared × HybridProgram A) : Compilation A :=
  let (p, program) := made
  ⟨program, p.plan, p.lowered, (FidelityCheck.ofConfig c).run c g program compiler.interpret⟩

/-- The only segment of a prepared graph, with the inputs and outputs of the graph as its
boundary. -/
def wholeSegment (p : Prepared) : Except ConfigError Segment :=
  match p.plan.segments, p.plan.fallbackNodes with
  | [s], [] => .ok { s with inputs := p.lowered.inputs, outputs := p.lowered.outputs }
  | segments, fallback => .error (.notSingleSegment segments.length fallback.length)

/-- Builds the only engine of a graph once the device is held. -/
def convertHeld (g : Graph) (c : CompileConfig) : Except CompileError Digest.Bytes := do
  let p ← compiler.prepare g c
  let whole ← (wholeSegment p).mapError .config
  let compiled ← ((compiler.builder c p).compile [] whole).1.mapError .build
  (A.save compiled.engine).mapError .engine

/-- Holds a device while something runs.  The device stays selected afterwards, whether that
succeeds or not. -/
def holding {α : Type} (s : DeviceState) (device : Device) (run : Unit → Except CompileError α) :
    Except CompileError α × DeviceState :=
  match s.acquire device with
  | .error e => (.error (.device e), s)
  | .ok s => (run (), s.release)

/-- Compiles a graph.  The device is given back before the program is compared with the graph. -/
def compile (s : DeviceState) (g : Graph) (c : CompileConfig) :
    Except CompileError (Compilation A) × DeviceState :=
  let (made, s) := holding s c.device fun _ => compiler.linkHeld g c
  (made.map (compiler.compared g c), s)

/-- The bytes of the engine of a graph that is a single segment. -/
def convertToEngine (s : DeviceState) (g : Graph) (c : CompileConfig) :
    Except CompileError Digest.Bytes × DeviceState :=
  holding s c.device fun _ => compiler.convertHeld g c

/-- The nodes of the lowered graph that have no converter. -/
def unsupported (g : Graph) (c : CompileConfig) : Except CompileError (List UnsupportedNode) := do
  c.check.mapError .config
  return compiler.registry.unsupported (← compiler.lower g c.lowering)

end Compiler

end HybridGraph
