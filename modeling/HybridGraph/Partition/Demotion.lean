import HybridGraph.Conversion.Registry
import HybridGraph.Partition.Basic
import HybridGraph.Shapes.Table
/-!
# Partitioning

Nodes that the registry refuses or the options exclude stay under the interpreter.  From the rest,
rounds of demotion take the constants that feed no engine, the nodes at boundaries that engines
cannot have, and, once nothing else changes, the nodes of runs that are too short.  What remains
when a round changes nothing are the segments: the maximal runs of consecutive nodes.
-/

namespace HybridGraph

/-- A node without a converter for it. -/
structure UnsupportedNode where
  node : NodeId
  kind : OpKind
  reason : Reason

/-- The nodes that a registry refuses, in order. -/
def Registry.unsupported {A : Accelerator} (r : Registry A) (g : Graph) : List UnsupportedNode :=
  g.nodes.filterMap fun node =>
    match r.support g node with
    | .ok _ => none
    | .error reason => some ⟨node.id, node.kind, reason⟩

/-- The nodes that stay under the interpreter so far, each once, the newest first. -/
abbrev Demoted := List (NodeId × FallbackReason)

namespace Demoted

/-- Whether a node stays under the interpreter. -/
def contains (d : Demoted) (id : NodeId) : Bool := (d.lookup id).isSome

/-- Demotes a node unless it is demoted already. -/
def add (d : Demoted) (id : NodeId) (reason : FallbackReason) : Demoted :=
  if d.contains id then d else (id, reason) :: d

end Demoted

/-! ## Runs -/

/-- A maximal run of eligible nodes, or a node between runs. -/
inductive Stretch where
  | run (nodes : List Node)
  | single (node : Node)

/-- Splits nodes into maximal runs of eligible ones and the nodes between them. -/
def stretches (eligible : Node → Bool) : List Node → List Stretch
  | [] => []
  | node :: rest =>
    if eligible node then
      match stretches eligible rest with
      | .run nodes :: more => .run (node :: nodes) :: more
      | more => .run [node] :: more
    else .single node :: stretches eligible rest

/-- The runs among stretches. -/
def Stretch.run? : Stretch → Option (List Node)
  | .run nodes => some nodes
  | .single _ => none

/-! ## Demotion -/

/-- What demotion looks at: the graph, its index, and the measured shapes, if every engine input
must be known. -/
structure Terrain where
  graph : Graph
  index : GraphIndex
  shapes? : Option ShapeTable

namespace Terrain

variable (t : Terrain)

/-- The runs that are left. -/
def runs (d : Demoted) : List (List Node) :=
  (stretches (fun node => !d.contains node.id) t.graph.nodes).filterMap Stretch.run?

/-- Whether a constant feeds a node that is not demoted. -/
def feedsEngine (d : Demoted) (node : Node) : Bool :=
  node.outputs.any fun v => (t.index.users v).any fun user => !d.contains user

/-- Demotes a constant that feeds no engine. -/
def demoteConstant (d : Demoted) (node : Node) : Demoted :=
  if node.kind = .constant ∧ !t.feedsEngine d node then d.add node.id .unusedConstant else d

/-- Demotes the members that read a value. -/
def demoteReaders (members : List NodeId) (reason : FallbackReason) (d : Demoted) (v : ValueId) :
    Demoted :=
  ((t.index.users v).filter members.contains).foldl (fun d user => d.add user reason) d

/-- Demotes the node that defines a value. -/
def demoteProducer (d : Demoted) (v : ValueId) : Demoted :=
  match t.index.producer? v with
  | some producer => d.add producer (.nonTensorBoundary v)
  | none => d

/-- Demotes the members of a run at boundaries that are no tensors. -/
def demoteNonTensors (d : Demoted) (run : List Node) : Demoted :=
  let members := run.map Node.id
  let inputs := (boundaryInputs t.index members run).filter fun v => !t.graph.isTensor v
  let outputs := (boundaryOutputs t.index members run).filter fun v => !t.graph.isTensor v
  let d := inputs.foldl (fun d v => t.demoteReaders members (.nonTensorBoundary v) d v) d
  outputs.foldl t.demoteProducer d

/-- Whether element type and shape of a value are known. -/
def bindable (shapes : ShapeTable) (v : ValueId) : Bool :=
  (shapes.get? v).isSome ||
    (t.graph.tensorType? v).any fun declared =>
      declared.dtype.isSome && declared.fixedExtents?.isSome

/-- Demotes the members of a run that read a value about which too little is known. -/
def demoteUnbindable (d : Demoted) (run : List Node) : Demoted :=
  match t.shapes? with
  | none => d
  | some shapes =>
    let members := run.map Node.id
    let unknown := (boundaryInputs t.index members run).filter fun v =>
      t.graph.isTensor v && !t.bindable shapes v
    unknown.foldl (fun d v => t.demoteReaders members (.unknownBoundary v) d v) d

/-- Demotes the nodes of a run that is too short. -/
def demoteShort (min : Nat) (d : Demoted) (run : List Node) : Demoted :=
  if run.length < min then
    run.foldl (fun d node => d.add node.id (.belowMinBlockSize run.length min)) d
  else d

/-- One round.  Runs that are too short are demoted only when nothing else is. -/
def round (min : Nat) (d : Demoted) : Demoted :=
  let afterConstants := t.graph.nodes.foldl t.demoteConstant d
  let runs := t.runs afterConstants
  let afterRuns := runs.foldl (fun d run => t.demoteUnbindable (t.demoteNonTensors d run) run)
    afterConstants
  if afterRuns.length = d.length then runs.foldl (demoteShort min) afterRuns else afterRuns

/-- Rounds until one changes nothing.  Every round before that demotes a node, so one round more
than there are nodes is enough. -/
def settle (min : Nat) : Nat → Demoted → Demoted
  | 0, d => d
  | rounds + 1, d =>
    let next := t.round min d
    if next.length = d.length then next else settle min rounds next

/-- The blocks of a plan; segments are numbered from `id` on. -/
def blocks (d : Demoted) (id : Nat) : List Stretch → List Block
  | [] => []
  | .single node :: rest =>
    .fallback node.id ((d.lookup node.id).getD (.unsupported "unclassified")) :: blocks d id rest
  | .run nodes :: rest =>
    let members := nodes.map Node.id
    .segment ⟨id, members, boundaryInputs t.index members nodes,
      boundaryOutputs t.index members nodes⟩ :: blocks d (id + 1) rest

end Terrain

namespace Graph

variable {A : Accelerator}

/-- Why a node may not be compiled at all, whatever its surroundings. -/
def excluded? (g : Graph) (r : Registry A) (options : PartitionOptions) (node : Node) :
    Option FallbackReason :=
  if options.excludedOps.contains node.kind then some (.excludedOp node.kind)
  else match options.excludedModules.find? node.inModule with
    | some path => some (.excludedModule path)
    | none =>
      match r.support g node with
      | .ok _ => none
      | .error reason => some (.unsupported reason.message)

/-- The nodes that stay under the interpreter from the start. -/
def excludedNodes (g : Graph) (r : Registry A) (options : PartitionOptions) : Demoted :=
  g.nodes.foldl
    (fun d node =>
      match g.excluded? r options node with
      | some reason => d.add node.id reason
      | none => d) []

/-- The demoted nodes of a graph as violations, in node order. -/
def violations (g : Graph) (d : Demoted) : List Violation :=
  g.nodes.filterMap fun node => (d.lookup node.id).map fun reason => ⟨node.id, node.kind, reason⟩

/-- Partitions a graph.  With a shape table, every engine input must be known. -/
def partition (g : Graph) (r : Registry A) (options : PartitionOptions)
    (shapes? : Option ShapeTable) : Except PartitionError Plan := do
  let index ← (GraphIndex.build g).mapError .structure
  let t : Terrain := ⟨g, index, shapes?⟩
  let d := t.settle (max options.minBlockSize 1) (g.nodes.length + 1) (g.excludedNodes r options)
  if options.fullCompilation && !d.isEmpty then throw (.requiresFallback (g.violations d))
  return ⟨t.blocks d 0 (stretches (fun node => !d.contains node.id) g.nodes)⟩

end Graph

end HybridGraph
