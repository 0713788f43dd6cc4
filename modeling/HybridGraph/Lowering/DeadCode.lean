import HybridGraph.Lowering.Basic
/-!
# Removing dead code

A node stays if it has side effects or if some result of it is needed.  Needed are the graph
outputs and the operands of the nodes that stay.
-/

namespace HybridGraph.DeadCode

/-- The node that defines a value; of several the last one. -/
def definer? (g : Graph) (v : ValueId) : Option Node :=
  g.nodes.reverse.find? (·.outputs.contains v)

/-- The values that nodes define and that are not among `found`. -/
def undiscovered (g : Graph) (found : List ValueId) : List ValueId :=
  (g.nodes.flatMap Node.outputs).filter fun v => !found.contains v

theorem undiscovered_cons (g : Graph) (found : List ValueId) (v : ValueId) :
    undiscovered g (v :: found) = (undiscovered g found).filter fun w => w != v := by
  simp only [undiscovered, List.filter_filter]
  refine List.filter_congr fun w _ => ?_
  by_cases h : w = v <;> simp [h]

theorem length_undiscovered_cons_le (g : Graph) (found : List ValueId) (v : ValueId) :
    (undiscovered g (v :: found)).length ≤ (undiscovered g found).length := by
  rw [undiscovered_cons]
  exact List.length_filter_le _ _

theorem mem_outputs_of_definer {g : Graph} {v : ValueId} {node : Node}
    (h : definer? g v = some node) : node ∈ g.nodes ∧ v ∈ node.outputs := by
  unfold definer? at h
  exact ⟨List.mem_reverse.mp (List.mem_of_find?_eq_some h), by simpa using List.find?_some h⟩

theorem length_undiscovered_lt {g : Graph} {found : List ValueId} {v : ValueId} {node : Node}
    (hnode : definer? g v = some node) (hv : v ∉ found) :
    (undiscovered g (v :: found)).length < (undiscovered g found).length := by
  obtain ⟨hmem, hout⟩ := mem_outputs_of_definer hnode
  rw [undiscovered_cons]
  refine List.length_filter_lt_length_iff_exists.mpr ⟨v, ?_, by simp⟩
  refine List.mem_filter.mpr ⟨List.mem_flatMap.mpr ⟨node, hmem, hout⟩, ?_⟩
  simpa using hv

/-- Follows needed values to their definitions; `found` are the needed values met so far. -/
def discover (g : Graph) (found : List ValueId) : List ValueId → List ValueId
  | [] => found
  | v :: work =>
    if _hv : v ∈ found then discover g found work
    else match _hd : definer? g v with
      | none => discover g (v :: found) work
      | some node => discover g (v :: found) (node.inputs ++ work)
termination_by work => ((undiscovered g found).length, work.length)
decreasing_by
  · exact Prod.Lex.right _ (by simp)
  · rcases Nat.lt_or_eq_of_le (length_undiscovered_cons_le g found v) with h | h
    · exact Prod.Lex.left _ _ h
    · rw [h]; exact Prod.Lex.right _ (by simp)
  · exact Prod.Lex.left _ _ (length_undiscovered_lt _hd _hv)

/-- The nodes with side effects. -/
def roots (g : Graph) : List Node := g.nodes.filter (·.kind.hasSideEffects)

/-- The needed values. -/
def needed (g : Graph) : List ValueId :=
  discover g [] ((roots g).flatMap Node.inputs ++ g.outputs)

/-- The ids of the nodes that stay. -/
def kept (g : Graph) : List NodeId :=
  (roots g).map Node.id ++ (needed g).filterMap fun v => (definer? g v).map Node.id

/-- Drops all other nodes; the count is the number of them. -/
def run (g : Graph) : Graph × Nat :=
  let ids := kept g
  let nodes := g.nodes.filter fun node => ids.contains node.id
  ({ g with nodes := nodes }, g.nodes.length - nodes.length)

end HybridGraph.DeadCode
