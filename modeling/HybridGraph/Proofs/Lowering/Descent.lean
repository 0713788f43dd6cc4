import HybridGraph.Proofs.Lowering.Decomposition
import HybridGraph.Proofs.Lowering.Simplification
import HybridGraph.Lowering.Pipeline
/-!
# Where lowered nodes come from

Every node of a lowered graph descends from a node that was there before: it is in the same scope,
and it is of the same kind or of one of the kinds into which that kind is decomposed
(`OpKind.parts`).  A part is never decomposed further, so the relation is transitive and follows
pass by pass:

    g.Ready → g.Descends (pass.run options g).1                               (Pass.descends_run)
-/

namespace HybridGraph

/-- The node is what became of another one. -/
structure Node.DescendsFrom (node old : Node) : Prop where
  scope : node.scope = old.scope
  kind : node.kind = old.kind ∨ node.kind ∈ old.kind.parts

theorem Node.DescendsFrom.refl (node : Node) : node.DescendsFrom node := ⟨rfl, .inl rfl⟩

theorem Node.DescendsFrom.trans {node mid old : Node} (h : node.DescendsFrom mid)
    (h' : mid.DescendsFrom old) : node.DescendsFrom old where
  scope := h.scope.trans h'.scope
  kind := by
    rcases h'.kind with hsame | hpart
    · rw [← hsame]
      exact h.kind
    · rcases h.kind with hkind | hkind
      · exact .inr (hkind ▸ hpart)
      · rw [OpKind.parts_of_mem_parts _ _ hpart] at hkind
        cases hkind

namespace Graph

/-- Every node of the second graph descends from one of the first. -/
def Descends (g g' : Graph) : Prop :=
  ∀ node ∈ g'.nodes, ∃ old ∈ g.nodes, node.DescendsFrom old

variable {g g' g'' : Graph}

theorem Descends.refl (g : Graph) : g.Descends g := fun node hn => ⟨node, hn, .refl node⟩

theorem Descends.trans (h : g.Descends g') (h' : g'.Descends g'') : g.Descends g'' := by
  intro node hn
  obtain ⟨mid, hmid, hdescends⟩ := h' node hn
  obtain ⟨old, hold, hdescends'⟩ := h mid hmid
  exact ⟨old, hold, hdescends.trans hdescends'⟩

/-- A sweep whose visits leave descendants leaves descendants. -/
theorem Descends.foldl {α : Type} {visit : Graph × Nat → α → Graph × Nat}
    (hvisit : ∀ (state : Graph × Nat) (a : α), state.1.Descends (visit state a).1) (as : List α)
    (state : Graph × Nat) :
    state.1.Descends (as.foldl visit state).1 := by
  induction as generalizing state with
  | nil => exact .refl state.1
  | cons a as ih => exact (hvisit state a).trans (ih (visit state a))

theorem descends_retire (id : NodeId) (old new : ValueId) : g.Descends (g.retire id old new) := by
  intro node hn
  obtain ⟨m, hm, rfl⟩ := List.mem_map.mp (List.mem_of_mem_filter hn)
  exact ⟨m, hm, rfl, .inl rfl⟩

theorem mem_updateFirst {id : NodeId} {change : Node → Node} {nodes : List Node} {node : Node}
    (h : node ∈ updateFirst id change nodes) : node ∈ nodes ∨ ∃ m ∈ nodes, node = change m := by
  induction nodes with
  | nil => cases h
  | cons first rest ih =>
    rw [updateFirst] at h
    split at h
    · rcases List.mem_cons.mp h with rfl | h
      · exact .inr ⟨first, List.mem_cons_self, rfl⟩
      · exact .inl (List.mem_cons_of_mem _ h)
    · rcases List.mem_cons.mp h with rfl | h
      · exact .inl List.mem_cons_self
      · rcases ih h with h | ⟨m, hm, rfl⟩
        · exact .inl (List.mem_cons_of_mem _ h)
        · exact .inr ⟨m, List.mem_cons_of_mem _ hm, rfl⟩

end Graph

open HybridGraph.Graph

/-! ## Passes -/

variable {g g' : Graph} {node : Node}

namespace Folding

theorem descends_applyFold {fold? : Graph → Node → Option Node}
    (hfold : ∀ g node folded, fold? g node = some folded → folded.DescendsFrom node)
    (id : NodeId) (state : Graph × Nat) : state.1.Descends (applyFold fold? id state).1 := by
  unfold applyFold
  cases hnode : (state.1.node? id).bind (fold? state.1) with
  | none => exact .refl state.1
  | some folded =>
    obtain ⟨node, hfind, hfolded⟩ := Option.bind_eq_some_iff.mp hnode
    intro n hn
    rcases mem_updateFirst hn with hn | ⟨-, -, rfl⟩
    · exact ⟨n, hn, .refl n⟩
    · exact ⟨node, (mem_of_node? hfind).1, hfold _ _ _ hfolded⟩

theorem descends_visit (state : Graph × Nat) (id : NodeId) :
    state.1.Descends (visit state id).1 := by
  have hattributes : ∀ g node folded, foldAttributes? g node = some folded →
      folded.DescendsFrom node := by
    intro g node folded h
    obtain ⟨_, _, -, -, -, -, rfl⟩ := foldAttributes?_eq_some.mp h
    exact ⟨rfl, .inl rfl⟩
  have hother : ∀ g node folded, foldOther? g node = some folded → folded.DescendsFrom node := by
    intro g node folded h
    obtain ⟨_, _, _, -, -, -, rfl⟩ := foldOther?_eq_some.mp h
    exact ⟨rfl, .inl rfl⟩
  exact (descends_applyFold hattributes id state).trans (descends_applyFold hother id _)

end Folding

namespace Identities

theorem descends_visit (state : Graph × Nat) (id : NodeId) :
    state.1.Descends (visit state id).1 := by
  unfold visit
  split
  · exact .refl state.1
  · split
    · exact descends_retire _ _ _
    · exact .refl state.1

end Identities

theorem Defaults.descends_run (g : Graph) : g.Descends (run g).1 := by
  intro n hn
  obtain ⟨node, hnode, rfl⟩ := List.mem_map.mp hn
  obtain ⟨attrs, hattrs⟩ := normalize_eq g node
  refine ⟨node, hnode, ?_⟩
  rw [hattrs]
  exact ⟨rfl, .inl rfl⟩

namespace Decomposition

/-- Emitted nodes are in the scope of their composite node and of kinds that are parts of its
kind. -/
theorem Expands.descends (h : Expands g node g') : g.Descends g' := by
  obtain ⟨added, last, -, -, hreplaces, -, -, hparts⟩ := h
  obtain ⟨before, after, out, hsplit, -, hnodes⟩ := hreplaces.nodes
  intro n hn
  rw [hnodes, List.mem_append, List.mem_append, List.mem_map] at hn
  rw [hsplit]
  rcases hn with (hn | hn) | ⟨m, hm, rfl⟩
  · exact ⟨n, List.mem_append_left _ hn, .refl n⟩
  · have hpart := hparts n hn
    exact ⟨node, List.mem_append_right _ List.mem_cons_self, hpart.scope, .inr hpart.kind⟩
  · exact ⟨m, List.mem_append_right _ (List.mem_cons_of_mem _ hm), rfl, .inl rfl⟩

theorem Decomposes.descends_visitKind {kind : OpKind} {visit : Graph → Node → Verdict}
    (hd : Decomposes kind visit) (pass : String) (h : g.Ready) :
    g.Descends (visitKind pass kind visit g).1 :=
  hd.visitKind_induction pass (p := g.Descends)
    (fun _ hp _ _ _ hexpands => hp.trans hexpands.descends) h (.refl g)

end Decomposition

/-- What a pass leaves descends from what was there. -/
theorem Pass.descends_run (options : LoweringOptions) (pass : Pass) (h : g.Ready) :
    g.Descends (pass.run options g).1 := by
  cases pass with
  | verify => exact .refl g
  | fold => exact Descends.foldl Folding.descends_visit g.nodeIds (g, 0)
  | normalize => exact Defaults.descends_run g
  | identities => exact Descends.foldl Identities.descends_visit (Identities.found g) (g, 0)
  | linear => exact Decomposition.Decomposes.linear.descends_visitKind _ h
  | silu => exact Decomposition.Decomposes.silu.descends_visitKind _ h
  | gelu => exact (Decomposition.Decomposes.gelu options).descends_visitKind _ h
  | deadCode => exact fun node hn => ⟨node, List.mem_of_mem_filter hn, .refl node⟩

end HybridGraph
