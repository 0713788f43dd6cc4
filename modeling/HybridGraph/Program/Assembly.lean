import HybridGraph.Partition.Basic
import HybridGraph.Program.Basic
/-!
# Putting engines into a graph

`HybridProgram.assemble` turns each segment of a plan into one call of its engine and keeps the
other nodes as they are; the engines may come in any order.  `HybridProgram.embed` wraps a single
saved engine into a program that only calls it.
-/

namespace HybridGraph

/-- Why a program cannot be put together or read. -/
inductive AssemblyError where
  | missingEngine (segment : Nat)
  | unknownNode (node : NodeId)
  | structure (cause : StructuralError)
  | engine (cause : EngineError)
  | malformed
  | engineNumber (node : NodeId) (number : Int) (count : Nat)

/-- The wording of an error. -/
def AssemblyError.message : AssemblyError → String
  | .missingEngine segment => s!"segment {segment} has no compiled engine"
  | .unknownNode node => s!"node {node.text} is in the plan but not in the graph"
  | .structure cause => cause.message
  | .engine cause => s!"engine: {cause.message}"
  | .malformed => "program json: malformed"
  | .engineNumber node number count =>
    s!"engine call {node.text} names engine {number}, but the program holds {count}"

/-! ## Assembling -/

/-- A program under construction, and the engines that wait for their segments. -/
structure Assembly (A : Accelerator) where
  program : HybridProgram A
  waiting : List (SegmentEngine A)

namespace Assembly

variable {A : Accelerator}

/-- Adds a node as it is. -/
def keepNode (source : Graph) (a : Assembly A) (id : NodeId) :
    Except AssemblyError (Assembly A) := do
  let some node := source.node? id | throw (.unknownNode id)
  let g := a.program.graph
  return { a with program.graph := { g with nodes := g.nodes ++ [node] } }

/-- Adds a call of the engine of a segment.  Of two engines for one segment the later one counts,
and no engine is used twice. -/
def callSegment (a : Assembly A) (s : Segment) : Except AssemblyError (Assembly A) := do
  let some engine := a.waiting.reverse.find? (·.segment = s.id) | throw (.missingEngine s.id)
  let p := a.program
  let (graph, _) := p.graph.pushNode (.engineCall p.engines.length s.inputs s.outputs)
  return {
    program := { graph, engines := p.engines ++ [engine] }
    waiting := a.waiting.filter (·.segment ≠ s.id) }

/-- Adds a block. -/
def addBlock (source : Graph) (a : Assembly A) : Block → Except AssemblyError (Assembly A)
  | .fallback node _ => a.keepNode source node
  | .segment s => a.callSegment s

end Assembly

namespace HybridProgram

variable {A : Accelerator}

/-- Replaces the segments of a plan by engine calls. -/
def assemble (g : Graph) (plan : Plan) (engines : List (SegmentEngine A)) :
    Except AssemblyError (HybridProgram A) := do
  let start : Assembly A := ⟨⟨{ g with nodes := [] }, []⟩, engines⟩
  let a ← plan.blocks.foldlM (Assembly.addBlock g) start
  a.program.graph.verify.mapError .structure
  return a.program

/-! ## Embedding -/

/-- The type of a value that an engine reads or writes. -/
def bindingType (binding : EngineBinding) : ValueType :=
  .tensor ⟨some binding.dtype, some binding.shape.dimensions⟩

/-- The port of a value that has the element type of the engine. -/
def bindingPort (v : ValueId) (binding : EngineBinding) : EnginePort :=
  ⟨v, some binding.dtype, binding.dtype⟩

/-- Adds a graph input for each binding. -/
def addInputs (g : Graph) : List EngineBinding → Graph × List ValueId
  | [] => (g, [])
  | binding :: rest =>
    let (g, v) := g.addInput (bindingType binding) binding.name
    let (g, vs) := addInputs g rest
    (g, v :: vs)

/-- Adds a value for each binding. -/
def addResults (g : Graph) : List EngineBinding → Graph × List ValueId
  | [] => (g, [])
  | binding :: rest =>
    let (g, v) := g.newValue (bindingType binding) (some binding.name)
    let (g, vs) := addResults g rest
    (g, v :: vs)

/-- Wraps the bytes of an engine: the graph inputs feed a single call whose results are the graph
outputs. -/
def embed (A : Accelerator) (bytes : Digest.Bytes) (device : Device) :
    Except AssemblyError (HybridProgram A) := do
  let engine ← (A.load bytes device).mapError .engine
  let (g, inputs) := addInputs (.empty "embedded_engine") (A.inputs engine)
  let (g, outputs) := addResults g (A.outputs engine)
  let (g, _) := g.pushNode (.engineCall 0 inputs outputs)
  let g := { g with outputs }
  g.verify.mapError .structure
  let hash := Digest.fnv1a bytes
  return {
    graph := g
    engines := [{
      segment := 0
      key := ⟨hash, hash⟩
      engine
      inputs := List.zipWith bindingPort inputs (A.inputs engine)
      outputs := List.zipWith bindingPort outputs (A.outputs engine) }] }

end HybridProgram

end HybridGraph
