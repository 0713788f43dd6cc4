import HybridGraph.Build.Segment
import HybridGraph.Execute.Run
/-!
# Hybrid programs

A hybrid program is a graph in which segments are calls of engines, and the table of engines that
those calls name by number.  It runs like any graph: calls go to their engines and all other nodes
to the interpreter.  A call converts its operands to what the engine reads, and the results to what
the graph expects.
-/

namespace HybridGraph

/-- A graph with engine calls, and the engines. -/
structure HybridProgram (A : Accelerator) where
  graph : Graph
  engines : List (SegmentEngine A)

/-- Whether a node calls an engine. -/
def Node.isEngineCall (node : Node) : Bool := node.kind = .engineCall

/-- A call of the engine with the given number; its id is for the graph to choose. -/
def Node.engineCall (number : Nat) (inputs outputs : List ValueId) : Node where
  id := ⟨0⟩
  kind := .engineCall
  inputs := inputs
  outputs := outputs
  attrs := AttrList.empty.insert "engine" (.int number)
  scope := none

/-- The tensor with the given element type; it is cast only if it has another one. -/
def Tensor.castTo (t : Tensor) (dtype : DType) : Tensor :=
  if t.dtype = dtype then t else t.cast dtype

namespace EnginePort

/-- What an engine reads for a value. -/
def feed (port : EnginePort) : Datum → Except NodeFault Tensor
  | .tensor t => .ok (t.castTo port.engine)
  | .scalar _ => .error (.engineOperand port.value)

/-- What the graph gets for a result of an engine. -/
def result (port : EnginePort) (t : Tensor) : Datum :=
  .tensor (port.declared.elim t t.castTo)

end EnginePort

namespace HybridProgram

variable {A : Accelerator} (p : HybridProgram A)

/-- The nodes that call engines. -/
def engineCalls : List Node := p.graph.nodes.filter Node.isEngineCall

/-- The nodes that stay under the interpreter. -/
def fallbackNodes : List Node := p.graph.nodes.filter fun node => !node.isEngineCall

/-- The number of the engine that a node calls. -/
def engineNumber (node : Node) : Except NodeFault Nat :=
  match node.int? "engine" with
  | some n => if 0 ≤ n then .ok n.toNat else .error .engineMissing
  | none => .error .engineMissing

/-- The engine that a node calls, with its number. -/
def engineOf (node : Node) : Except NodeFault (Nat × SegmentEngine A) := do
  let number ← engineNumber node
  match p.engines[number]? with
  | some engine => return (number, engine)
  | none => throw (.engineUnknown number)

/-- What an engine reads for the operands of a call. -/
def feeds (engine : SegmentEngine A) (args : List Datum) : Except NodeFault (List Tensor) := do
  if args.length ≠ engine.inputs.length then
    throw (.engineOperands engine.inputs.length args.length)
  (args.zip engine.inputs).mapM fun (arg, port) => port.feed arg

/-- Runs a call. -/
def callEngine (node : Node) (args : List Datum) : Except ExecError (List Datum) := do
  let (number, engine) ← (p.engineOf node).mapError node.fault
  let inputs ← (feeds engine args).mapError node.fault
  let results ← (A.execute engine.engine inputs).mapError (.engine number)
  if results.length ≠ engine.outputs.length then
    throw (.outputCount node.id node.kind engine.outputs.length results.length)
  return (results.zip engine.outputs).map fun (t, port) => port.result t

/-- Runs any node: calls by their engines, all others by the interpreter. -/
def step (interpret : Interpreter) : Interpreter := fun node args =>
  if node.isEngineCall then p.callEngine node args else interpret node args

/-- Runs a program. -/
def run (interpret : Interpreter) (inputs : List Tensor) : Except ExecError (List Tensor) :=
  p.graph.run (p.step interpret) inputs

end HybridProgram

end HybridGraph
