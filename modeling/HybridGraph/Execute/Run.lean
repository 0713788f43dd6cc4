import HybridGraph.Execute.Value
/-!
# Running graphs

`Graph.execute` runs the nodes in order, each on the values of its operands, and answers the values
of the graph outputs together with all values computed on the way.  `Graph.run` also insists that
the outputs are tensors, and `Graph.trace` keeps the values computed before a failure.

What runs a node may have effects of its own, so the loop is one for all monads in which a run can
fail (`Graph.executeIn`).  An interpreter has no other effect.
-/

namespace HybridGraph

/-- The values computed so far, the newest first. -/
abbrev Bindings := List (ValueId × Datum)

/-- The value of an id. -/
def Bindings.read (bound : Bindings) (v : ValueId) : Except ExecError Datum :=
  match bound.lookup v with
  | some value => .ok value
  | none => .error (.unbound v)

/-- Adds values, the first one first. -/
def Bindings.extend (bound : Bindings) (vs : List ValueId) (values : List Datum) : Bindings :=
  (vs.zip values).foldl (fun bound entry => entry :: bound) bound

/-- Whether measured extents fit declared ones. -/
def fitsDeclared (declared : List Dimension) (dims : List Nat) : Bool :=
  declared.length == dims.length &&
    (declared.zip dims).all fun (dim, n) => dim.extent?.all (· == n)

namespace Graph

/-- Refuses an input that contradicts its declared type. -/
def checkInput (g : Graph) (input : Nat) (v : ValueId) (t : Tensor) : Except ExecError Unit := do
  let some declared := g.tensorType? v | return
  if let some dtype := declared.dtype then
    if dtype ≠ t.dtype then throw (.inputType input dtype t.dtype)
  if let some dims := declared.shape then
    if !fitsDeclared dims t.dims then throw (.inputShape input t.dims)

/-- Binds the graph inputs. -/
def bindInputs (g : Graph) (inputs : List Tensor) : Except ExecError Bindings := do
  if inputs.length ≠ g.inputs.length then throw (.inputCount g.inputs.length inputs.length)
  (g.inputs.zip inputs).zipIdx.forM fun ((v, t), input) => g.checkInput input v t
  return Bindings.extend [] g.inputs (inputs.map .tensor)

section

variable {m : Type → Type} [Monad m] [MonadLiftT (Except ExecError) m]

/-- Runs one node with whatever effects its step has, and binds its results. -/
def runNodeIn (step : Node → List Datum → m (List Datum)) (bound : Bindings) (node : Node) :
    m Bindings := do
  let args ← (node.inputs.mapM bound.read : Except ExecError (List Datum))
  let results ← step node args
  if results.length ≠ node.outputs.length then
    (throw (.outputCount node.id node.kind node.outputs.length results.length) :
      Except ExecError PUnit)
  return bound.extend node.outputs results

/-- Runs the nodes in order and answers all values and those of the graph outputs. -/
def executeIn (g : Graph) (step : Node → List Datum → m (List Datum)) (inputs : List Tensor) :
    m (Bindings × List Datum) := do
  let bound ← (g.bindInputs inputs : Except ExecError Bindings)
  let bound ← g.nodes.foldlM (runNodeIn step) bound
  let values ← (g.outputs.mapM bound.read : Except ExecError (List Datum))
  return (bound, values)

end

/-- Runs one node and binds its results. -/
def runNode (step : Interpreter) : Bindings → Node → Except ExecError Bindings := runNodeIn step

/-- Runs the nodes in order with an interpreter. -/
def execute (g : Graph) (step : Interpreter) (inputs : List Tensor) :
    Except ExecError (Bindings × List Datum) := g.executeIn step inputs

/-- Runs nodes until one fails, and keeps what was computed before it. -/
def runWhileOk (step : Interpreter) : Bindings → List Node → Bindings
  | bound, [] => bound
  | bound, node :: rest =>
    match runNode step bound node with
    | .ok bound => runWhileOk step bound rest
    | .error _ => bound

/-- The values computed before the first failure. -/
def trace (g : Graph) (step : Interpreter) (inputs : List Tensor) : Bindings :=
  match g.bindInputs inputs with
  | .ok bound => runWhileOk step bound g.nodes
  | .error _ => []

end Graph

/-- The tensor, or an error if it is a scalar. -/
def Datum.toTensor : Datum → Except ExecError Tensor
  | .tensor t => .ok t
  | .scalar a => .error (.notTensor a)

/-- Runs a graph whose outputs are tensors. -/
def Graph.run (g : Graph) (step : Interpreter) (inputs : List Tensor) :
    Except ExecError (List Tensor) := do
  let (_, outputs) ← g.execute step inputs
  outputs.mapM Datum.toTensor

end HybridGraph
