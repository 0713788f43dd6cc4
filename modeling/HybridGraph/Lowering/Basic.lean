import HybridGraph.Graph.Index
/-!
# Lowering: options, statistics, errors

A pass changes a graph and says what it did.  A pass that fails may have changed part of the
graph already, so its graph is kept beside the error.
-/

namespace HybridGraph

/-- What lowering is allowed to do. -/
structure LoweringOptions where
  approximateGelu : Bool := false
deriving DecidableEq

/-- What a pass did. -/
structure PassStats where
  changed : Bool := false
  iterations : Nat := 0
  modified : Nat := 0
  erased : Nat := 0
deriving DecidableEq

namespace PassStats

/-- So many nodes were changed. -/
def ofModified (count : Nat) : PassStats := { changed := count != 0, modified := count }

/-- So many nodes were removed. -/
def ofErased (count : Nat) : PassStats := { changed := count != 0, erased := count }

/-- What two passes did together. -/
def merge (a b : PassStats) : PassStats where
  changed := a.changed || b.changed
  iterations := a.iterations + b.iterations
  modified := a.modified + b.modified
  erased := a.erased + b.erased

end PassStats

/-- Why a pass cannot handle a node. -/
inductive LoweringFault where
  | weightRank (rank : Nat)
  | approximation (name : String)
deriving DecidableEq

/-- The wording of a fault. -/
def LoweringFault.message : LoweringFault → String
  | .weightRank rank => s!"weight must be rank 2, found rank {rank}"
  | .approximation name => s!"unknown gelu approximation `{name}`"

/-- Why a pass failed. -/
inductive LoweringError where
  | structure (pass : String) (cause : StructuralError)
  | unexpected (pass : String) (node : NodeId) (kind : OpKind) (fault : LoweringFault)

/-- The wording of an error. -/
def LoweringError.message : LoweringError → String
  | .structure pass cause => s!"pass `{pass}` left a malformed graph: {cause.message}"
  | .unexpected pass node kind fault =>
    s!"pass `{pass}` cannot handle node {node.text} ({kind.name}): {fault.message}"

/-- The graph after a pass, and what the pass did or why it failed. -/
abbrev Lowered := Graph × Except LoweringError PassStats

namespace Graph

/-- The payload of a constant that is no tensor. -/
def scalarConstant? (g : Graph) (v : ValueId) : Option Attr := do
  let node ← g.producer? v
  if node.kind = .constant ∧ !g.isTensor v then node.attr? "value" else none

/-- Makes the readers of `old` read `new` and drops the node that defined `old`. -/
def retire (g : Graph) (id : NodeId) (old new : ValueId) : Graph :=
  (g.replaceUses old new).removeNodes [id]

end Graph

end HybridGraph
