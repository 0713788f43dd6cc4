import HybridGraph.Graph.Basic
/-!
# Shape tables

What is known about the tensors of a graph once their shapes have been measured.  The entries are
sorted by value, each value once.  `ShapeTable.refine` fills in what the declared types leave open
and never changes what they say.
-/

namespace HybridGraph

/-- Element type and shape contract of a value. -/
structure ValueShape where
  dtype : DType
  shape : ShapeSpec
deriving DecidableEq

/-- Shapes of values. -/
abbrev ShapeTable := List (ValueId × ValueShape)

namespace ShapeTable

/-- Enters a shape, instead of an earlier one of the same value. -/
def insert (v : ValueId) (shape : ValueShape) : ShapeTable → ShapeTable
  | [] => [(v, shape)]
  | (w, held) :: rest =>
    if v.index < w.index then (v, shape) :: (w, held) :: rest
    else if v = w then (v, shape) :: rest
    else (w, held) :: insert v shape rest

/-- The shape of a value. -/
def get? (table : ShapeTable) (v : ValueId) : Option ValueShape := table.lookup v

/-- The declared type with its open parts filled in; none if nothing is open. -/
def refined? (shape : ValueShape) (declared : TensorType) : Option TensorType :=
  if declared.dtype.isSome && declared.shape.isSome then none
  else some {
    dtype := declared.dtype.or (some shape.dtype)
    shape := declared.shape.or (some shape.shape.dimensions) }

/-- Fills in the type of one value and counts it. -/
def refineValue (state : Graph × Nat) (entry : ValueId × ValueShape) : Graph × Nat :=
  let (g, count) := state
  match (g.tensorType? entry.1).bind (refined? entry.2) with
  | some type => (g.setType entry.1 (.tensor type), count + 1)
  | none => (g, count)

/-- Fills in the types of all values of the table, and counts those that changed. -/
def refine (table : ShapeTable) (g : Graph) : Graph × Nat := table.foldl refineValue (g, 0)

end ShapeTable

end HybridGraph
