import HybridGraph.Build.Boundary
import HybridGraph.Build.Fingerprint
import HybridGraph.Conversion.Registry
/-!
# Building the engine of a segment

The members of a segment become the layers of a network whose inputs and outputs are the values at
the boundary, and the network becomes an engine.  A cache holds what was built for each key,
failures included, so that equal segments are built once.  `SegmentBuilder.compile` asks the cache
first; whatever it answers belongs to the segment that was asked for.
-/

namespace HybridGraph

/-! ## Caches -/

/-- What was built and how: the hash of the segment and the digest of the builder options. -/
structure EngineKey where
  segmentHash : UInt64
  configHash : UInt64
deriving DecidableEq

/-- Engines and failures by key, each key once. -/
abbrev EngineCache (E : Type) := List (EngineKey × Except BuildError E)

namespace EngineCache

variable {E : Type}

/-- What was built for a key. -/
def get? (cache : EngineCache E) (key : EngineKey) : Option (Except BuildError E) :=
  cache.lookup key

/-- Reports a failure for a segment. -/
def reportFor (segment : Nat) (result : Except BuildError E) : Except BuildError E :=
  result.mapError fun e => { e with segment := segment }

/-- What was built for a key; it is built if nothing was. -/
def ensure (cache : EngineCache E) (key : EngineKey) (segment : Nat)
    (build : Unit → Except BuildError E) : Except BuildError E × EngineCache E :=
  match cache.get? key with
  | some held => (reportFor segment held, cache)
  | none =>
    let built := build ()
    (reportFor segment built, (key, built) :: cache)

end EngineCache

/-! ## Segments -/

/-- A value at the boundary of an engine: the element type that the graph expects, if it is known,
and the one that the engine reads or writes. -/
structure EnginePort where
  value : ValueId
  declared : Option DType
  engine : DType
deriving DecidableEq

/-- The engine of a segment. -/
structure SegmentEngine (A : Accelerator) where
  segment : Nat
  key : EngineKey
  engine : A.Engine
  inputs : List EnginePort
  outputs : List EnginePort

/-- What the build of every segment of a graph shares. -/
structure SegmentBuilder (A : Accelerator) where
  registry : Registry A
  config : CompileConfig
  graph : Graph
  shapes : ShapeTable

namespace SegmentBuilder

variable {A : Accelerator} (b : SegmentBuilder A)

/-! ## The network -/

/-- The values that enter a segment. -/
def boundary (s : Segment) : Except BuildError (List BoundaryInput) :=
  (s.inputs.mapM (b.graph.boundaryInput b.shapes b.config.truncateWide)).mapError
    fun fault => ⟨s.id, none, fault⟩

/-- Adds a network input that stands for a value. -/
def addInput (segment : Nat) (state : EmitState A) (entry : BoundaryInput × Nat) :
    Except BuildError (EmitState A) := do
  let (input, number) := entry
  let name := s!"input_{number}"
  let (network, tensor) ← (A.addInput state.network name input.engine input.shape).mapError
    fun cause => ⟨segment, none, .engine cause⟩
  return { state with network }.bind input.value tensor

/-- Adds the layers of a member. -/
def addMember (segment : Nat) (state : EmitState A) (id : NodeId) :
    Except BuildError (EmitState A) := do
  let some node := b.graph.node? id | throw ⟨segment, some id, .foreignMember⟩
  let (result, state) := b.registry.convert b.graph b.config.truncateWide state node
  result.mapError fun cause => ⟨segment, some cause.node, .conversion cause⟩
  return state

/-- Makes the tensor of a value a network output. -/
def addOutput (segment : Nat) (state : EmitState A) (entry : ValueId × Nat) :
    Except BuildError (EmitState A) := do
  let (v, number) := entry
  let some tensor := state.tensor? v | throw ⟨segment, none, .neverConverted v⟩
  let network ← (A.markOutput state.network tensor s!"output_{number}").mapError
    fun cause => ⟨segment, none, .engine cause⟩
  return { state with network }

/-- The network of a segment. -/
def network (s : Segment) (inputs : List BoundaryInput) : Except BuildError (EmitState A) := do
  let state ← inputs.zipIdx.foldlM (addInput s.id) (EmitState.start A)
  let state ← s.nodes.foldlM (b.addMember s.id) state
  s.outputs.zipIdx.foldlM (addOutput s.id) state

/-- Builds the engine of a segment; a layer that the builder blames names its node. -/
def build (s : Segment) (inputs : List BoundaryInput) : Except BuildError A.Engine := do
  let state ← b.network s inputs
  (A.build state.network b.config.builder).mapError fun cause =>
    ⟨s.id, cause.layer.bind fun layer => state.layerNodes[layer]?, .engine cause⟩

/-! ## Engines -/

/-- The key of a segment. -/
def key (s : Segment) (inputs : List BoundaryInput) : Except BuildError EngineKey := do
  let fingerprint ← Fingerprint.ofSegment b.graph s inputs
  return ⟨fingerprint.hash, b.config.builder.digest A.name b.config.truncateWide⟩

/-- The ports of an engine that stands for a segment. -/
def ports (s : Segment) (inputs : List BoundaryInput) (key : EngineKey) (engine : A.Engine) :
    Except BuildError (SegmentEngine A) := do
  let bindings := A.outputs engine
  if bindings.length ≠ s.outputs.length then
    throw ⟨s.id, none, .outputCount bindings.length s.outputs.length⟩
  return {
    segment := s.id
    key
    engine
    inputs := inputs.map fun input => ⟨input.value, some input.declared, input.engine⟩
    outputs := (s.outputs.zip bindings).map fun (v, binding) =>
      ⟨v, b.graph.knownType? b.shapes v, binding.dtype⟩ }

/-- The engine of a segment, from the cache if an equal segment was built before. -/
def compile (cache : EngineCache A.Engine) (s : Segment) :
    Except BuildError (SegmentEngine A) × EngineCache A.Engine :=
  match (do let inputs ← b.boundary s; return (inputs, ← b.key s inputs)) with
  | .error e => (.error e, cache)
  | .ok (inputs, key) =>
    let (engine, cache) := cache.ensure key s.id fun _ => b.build s inputs
    (engine >>= b.ports s inputs key, cache)

/-- The engines of segments, in order, up to the first failure. -/
def compileAll (cache : EngineCache A.Engine) :
    List Segment → Except BuildError (List (SegmentEngine A))
  | [] => .ok []
  | s :: rest => do
    let (result, cache) := b.compile cache s
    let engine ← result
    return engine :: (← compileAll cache rest)

end SegmentBuilder

end HybridGraph
