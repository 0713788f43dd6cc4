import HybridGraph.Execute.Run
import HybridGraph.Shapes.Table
import HybridGraph.Tensor.InputSpec
/-!
# Shape analysis

Graph inputs have the shapes of their contracts.  All other tensors are measured: the graph runs on
tensors of ones at the smallest, typical and largest input shapes, and a tensor that was computed
in all three runs with one rank has the range of its three shapes.  A run that fails counts as far
as it came.
-/

namespace HybridGraph

/-- Element types and extents of computed tensors. -/
abbrev Measurement := List (ValueId × DType × List Nat)

namespace Measurement

/-- The tensors among values. -/
def ofBindings (bound : Bindings) : Measurement :=
  bound.filterMap fun (v, value) => value.tensor?.map fun t => (v, t.dtype, t.dims)

/-- The extents of a value. -/
def dims? (m : Measurement) (v : ValueId) : Option (List Nat) := (m.lookup v).map Prod.snd

end Measurement

namespace Graph

/-- Measures the tensors of one run on ones. -/
def measure (g : Graph) (step : Interpreter) (specs : List InputSpec)
    (pick : ShapeSpec → List Nat) : Measurement :=
  .ofBindings (g.trace step (specs.map fun spec => .ones spec.dtype (pick spec.shape)))

/-- The shape of a value over three runs, if it has one rank in all of them. -/
def measuredShape? (lo mid hi : Measurement) (v : ValueId) : Option ValueShape := do
  let (dtype, opt) ← mid.lookup v
  let min ← lo.dims? v
  let max ← hi.dims? v
  if min.length = opt.length ∧ max.length = opt.length then
    some ⟨dtype, .ofMeasured min opt max⟩
  else none

/-- The shapes of the inputs. -/
def declaredShapes (g : Graph) (specs : List InputSpec) : ShapeTable :=
  (g.inputs.zip specs).foldl
    (fun table (v, spec) => table.insert v ⟨spec.dtype, spec.shape⟩) []

/-- The shapes of the tensors of a graph. -/
def shapeTable (g : Graph) (step : Interpreter) (specs : List InputSpec) : ShapeTable :=
  let mid := g.measure step specs ShapeSpec.opt
  let ranged := specs.any (·.shape.isRanged)
  let lo := if ranged then g.measure step specs ShapeSpec.min else mid
  let hi := if ranged then g.measure step specs ShapeSpec.max else mid
  mid.foldl
    (fun table (v, _) =>
      if g.inputs.contains v then table
      else match measuredShape? lo mid hi v with
        | some shape => table.insert v shape
        | none => table)
    (g.declaredShapes specs)

/-- The shapes of the tensors of a graph, and the graph with its types filled in from them. -/
def measured (g : Graph) (step : Interpreter) (specs : List InputSpec) : ShapeTable × Graph :=
  let shapes := g.shapeTable step specs
  (shapes, (shapes.refine g).1)

end Graph

end HybridGraph
