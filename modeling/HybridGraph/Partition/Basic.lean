import HybridGraph.Graph.Index
import HybridGraph.Settings.Config
/-!
# Partition plans

A plan covers the nodes of a graph, in order, by segments that become engines and by nodes that
stay under the interpreter.  `Plan.validate` checks the cover and the boundary of every segment:
the values it reads from outside, in the order of their first use, and the values it defines for
others, in the order in which they are defined.
-/

namespace HybridGraph

/-- What a partition is asked for. -/
structure PartitionOptions where
  minBlockSize : Nat := defaultMinBlockSize
  excludedOps : List OpKind := []
  excludedModules : List String := []
  fullCompilation : Bool := false

/-- The options of a compilation that concern the partition. -/
def PartitionOptions.ofConfig (c : CompileConfig) : PartitionOptions where
  minBlockSize := c.smallestSegment
  excludedOps := c.excludedKinds
  excludedModules := c.excludedModules
  fullCompilation := c.fullCompilation

/-- Why a node stays under the interpreter.  `unsupported` carries the wording of the reason. -/
inductive FallbackReason where
  | unsupported (reason : String)
  | excludedOp (kind : OpKind)
  | excludedModule (path : String)
  | unusedConstant
  | nonTensorBoundary (value : ValueId)
  | unknownBoundary (value : ValueId)
  | belowMinBlockSize (run min : Nat)
deriving DecidableEq

/-- The wording of a reason. -/
def FallbackReason.message : FallbackReason → String
  | .unsupported reason => s!"unsupported: {reason}"
  | .excludedOp kind => s!"{kind.name} is in torch_executed_ops"
  | .excludedModule path => s!"inside `{path}`, which is in torch_executed_modules"
  | .unusedConstant => "constant without compiled consumers"
  | .nonTensorBoundary value => s!"non-tensor value {value.text} would cross an engine boundary"
  | .unknownBoundary value => s!"engine input {value.text} has no known dtype or shape"
  | .belowMinBlockSize run min => s!"run of {run} node(s) is below min_block_size {min}"

/-- Nodes that become one engine, with the values that cross their boundary. -/
structure Segment where
  id : Nat
  nodes : List NodeId
  inputs : List ValueId
  outputs : List ValueId
deriving DecidableEq

/-- A part of a plan. -/
inductive Block where
  | segment (segment : Segment)
  | fallback (node : NodeId) (reason : FallbackReason)

/-- The nodes of a block. -/
def Block.nodes : Block → List NodeId
  | .segment s => s.nodes
  | .fallback node _ => [node]

/-- A partition plan. -/
structure Plan where
  blocks : List Block

/-- A node that would stay under the interpreter although none may. -/
structure Violation where
  node : NodeId
  kind : OpKind
  reason : FallbackReason

/-- The wording of a violation. -/
def Violation.message (v : Violation) : String :=
  s!"{v.node.text} ({v.kind.name}): {v.reason.message}"

/-- Why a graph cannot be partitioned, or a plan is wrong. -/
inductive PartitionError where
  | requiresFallback (violations : List Violation)
  | notCover
  | emptySegment (id : Nat)
  | wrongBoundary (id : Nat)
  | structure (cause : StructuralError)

/-- The wording of an error. -/
def PartitionError.message : PartitionError → String
  | .requiresFallback violations =>
    let listed := "; ".intercalate (violations.map Violation.message)
    s!"full compilation requested but {violations.length} node(s) would run in fallback: {listed}"
  | .notCover =>
    "invalid partition plan: blocks do not cover the graph's nodes exactly once in order"
  | .emptySegment id => s!"invalid partition plan: segment {id} is empty"
  | .wrongBoundary id =>
    s!"invalid partition plan: segment {id} boundary does not match its nodes"
  | .structure cause => cause.message

/-! ## Boundaries -/

/-- Values that nodes read and none of the members defines, each once, in order. -/
def boundaryInputs (index : GraphIndex) (members : List NodeId) (nodes : List Node) :
    List ValueId :=
  (nodes.flatMap Node.inputs).foldl
    (fun inputs v =>
      if (index.producer? v).any members.contains || inputs.contains v then inputs
      else inputs ++ [v]) []

/-- Whether a value is a graph output or read by a node that is no member. -/
def escapes (index : GraphIndex) (members : List NodeId) (v : ValueId) : Bool :=
  index.isOutput v || (index.users v).any fun user => !members.contains user

/-- Values that nodes define for others, in order. -/
def boundaryOutputs (index : GraphIndex) (members : List NodeId) (nodes : List Node) :
    List ValueId :=
  (nodes.flatMap Node.outputs).filter (escapes index members)

/-! ## Plans -/

namespace Plan

/-- The segments of a plan. -/
def segments (p : Plan) : List Segment :=
  p.blocks.filterMap fun
    | .segment s => some s
    | .fallback .. => none

/-- The nodes that stay under the interpreter. -/
def fallbackNodes (p : Plan) : List NodeId :=
  p.blocks.filterMap fun
    | .segment _ => none
    | .fallback node _ => some node

/-- All nodes of a plan, in order. -/
def nodes (p : Plan) : List NodeId := p.blocks.flatMap Block.nodes

/-- The nodes of the given ids that the index knows. -/
def nodesAt (g : Graph) (index : GraphIndex) (ids : List NodeId) : List Node :=
  ids.filterMap fun id => (index.position? id).bind fun position => g.nodes[position]?

/-- Refuses an empty segment and one with a wrong boundary. -/
def checkSegment (g : Graph) (index : GraphIndex) (s : Segment) : Except PartitionError Unit := do
  if s.nodes.isEmpty then throw (.emptySegment s.id)
  let nodes := nodesAt g index s.nodes
  if boundaryInputs index s.nodes nodes ≠ s.inputs ∨
      boundaryOutputs index s.nodes nodes ≠ s.outputs then
    throw (.wrongBoundary s.id)

/-- Refuses plans that do not cover the graph or whose segments have wrong boundaries. -/
def validate (p : Plan) (g : Graph) : Except PartitionError Unit := do
  if p.nodes ≠ g.nodeIds then throw .notCover
  let index ← (GraphIndex.build g).mapError .structure
  p.segments.forM (checkSegment g index)

end Plan

end HybridGraph
