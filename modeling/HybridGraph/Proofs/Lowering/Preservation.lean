import HybridGraph.Lowering.Basic
import HybridGraph.Proofs.Graph.WellFormed
import Mathlib.Algebra.Order.BigOperators.Group.List
import Mathlib.Algebra.Order.Ring.Nat
/-!
# What lowering keeps

A node with one result is retired in favour of a value that exists before it: its readers, graph
outputs included, read that value instead, and the node is dropped.  The graph stays well-formed:

    g.WellFormed → g.nodes = before ++ node :: after → node.outputs = [old] →
      new ∈ definedBy g.inputs before → (g.retire node.id old new).WellFormed   (WellFormed.retire)

Whatever is done to a well-formed graph, the graph that is left is well-formed, has the same inputs
and as many outputs, and its nodes are nodes of the same id and kind as before or have new ids
(`Graph.Extends`).

Ids are 32-bit numbers, so there must be enough of them left.  A composite node may take as many as
its decomposition has nodes (`OpKind.demand`), and a graph is ready if the counter does not run out
before every node took its own (`Graph.Ready`).  A pass uses up no more than the demand falls by
(`Graph.Preserves`), so what it leaves of a ready graph is ready:

    g.Preserves g' → g.Ready → g'.Ready                                         (Preserves.ready)

Both relations are reflexive and transitive, so they follow visit by visit and pass by pass.  A
sweep over ids that were collected before it began still finds nodes of the kinds that it collected
(`Graph.OfKind.of_preserves`).
-/

/-! ## Retiring nodes -/

namespace HybridGraph.Graph

variable {g : Graph} {before after : List Node} {node : Node} {old : ValueId}

/-- Nodes in front of a node do not read its results. -/
theorem notMem_inputs_of_before {arena : Nat} {inputs : List ValueId}
    (h : InOrder arena inputs (before ++ node :: after)) (hout : old ∈ node.outputs) :
    ∀ earlier ∈ before, old ∉ earlier.inputs := by
  intro earlier hn hread
  obtain ⟨front, back, rfl⟩ := List.append_of_mem hn
  have hreads := (h front earlier (back ++ node :: after) (by simp)).reads old hread
  have hnode := h (front ++ earlier :: back) node after rfl
  exact hnode.unassigned old hout (definedBy_subset_append inputs front _ hreads)

/-- The node list without a retired node. -/
theorem nodes_retire (new : ValueId) (h : g.SingleAssignment)
    (hsplit : g.nodes = before ++ node :: after) (hout : node.outputs = [old]) :
    (g.retire node.id old new).nodes = before ++ after.map (Node.replaceInput old new) := by
  have horder := h.nodes
  have hids := horder.nodup
  rw [hsplit] at horder hids
  rw [List.map_append, List.map_cons, List.nodup_append, List.nodup_cons] at hids
  obtain ⟨-, ⟨hafter, -⟩, hbefore⟩ := hids
  have hunread := notMem_inputs_of_before horder (hout ▸ List.mem_cons_self)
  have hother : ∀ n, n.id ≠ node.id →
      (!List.contains [node.id] (Node.replaceInput old new n).id) = true := by
    intro n hne
    simpa [Node.replaceInput] using hne
  have hfirst : (before.map (Node.replaceInput old new)).filter
      (fun n => !List.contains [node.id] n.id) = before := by
    rw [List.filter_map, List.filter_eq_self.mpr]
    · conv_rhs => rw [← List.map_id before]
      exact List.map_congr_left fun n hn => Node.replaceInput_eq_self (hunread n hn)
    · intro n hn
      exact hother n (hbefore _ (List.mem_map_of_mem hn) _ List.mem_cons_self)
  have hlast : (after.map (Node.replaceInput old new)).filter
      (fun n => !List.contains [node.id] n.id) = after.map (Node.replaceInput old new) := by
    rw [List.filter_map, List.filter_eq_self.mpr]
    intro n hn
    exact hother n fun he => hafter (he ▸ List.mem_map_of_mem hn)
  have hself : (!List.contains [node.id] (Node.replaceInput old new node).id) = false := by
    simp [Node.replaceInput]
  show (g.nodes.map (Node.replaceInput old new)).filter _ = _
  rw [hsplit, List.map_append, List.map_cons, List.filter_append, List.filter_cons_of_neg, hfirst,
    hlast]
  rw [hself]
  exact Bool.false_ne_true

theorem checkNode_replaceInput {new : ValueId} :
    checkNode (node.replaceInput old new) = .ok () ↔ checkNode node = .ok () := by
  rw [checkNode_eq_ok, checkNode_eq_ok]
  simp [Node.replaceInput]

/-- A node that remains is one of the graph, perhaps with another operand. -/
theorem exists_of_mem_retire {new : ValueId} (h : g.SingleAssignment)
    (hsplit : g.nodes = before ++ node :: after) (hout : node.outputs = [old]) {n : Node}
    (hn : n ∈ (g.retire node.id old new).nodes) : ∃ m ∈ g.nodes, n = m.replaceInput old new := by
  have horder := h.nodes
  rw [hsplit] at horder
  rw [nodes_retire new h hsplit hout, List.mem_append, List.mem_map] at hn
  rw [hsplit]
  rcases hn with hn | ⟨m, hm, rfl⟩
  · have hunread := notMem_inputs_of_before horder (hout ▸ List.mem_cons_self) n hn
    exact ⟨n, List.mem_append_left _ hn, (Node.replaceInput_eq_self hunread).symm⟩
  · exact ⟨m, List.mem_append_right _ (List.mem_cons_of_mem _ hm), rfl⟩

/-- Retiring a node keeps the single assignment form. -/
theorem SingleAssignment.retire {new : ValueId} (h : g.SingleAssignment)
    (hsplit : g.nodes = before ++ node :: after) (hout : node.outputs = [old])
    (hnew : new ∈ definedBy g.inputs before) : (g.retire node.id old new).SingleAssignment := by
  have hnodes := nodes_retire new h hsplit hout
  have horder := h.nodes
  rw [hsplit] at horder
  refine ⟨h.distinct, h.known, ?_, ?_⟩
  · rw [hnodes]
    exact horder.retire hout hnew
  · intro v hv
    rw [hnodes]
    obtain ⟨w, hw, rfl⟩ := List.mem_map.mp hv
    by_cases he : w = old
    · rw [if_pos he]
      exact definedBy_subset_append _ before _ hnew
    · rw [if_neg he]
      have hdefined := h.outputs w hw
      rw [hsplit, definedBy_append, List.flatMap_cons, hout] at hdefined
      show w ∈ definedBy g.inputs _
      rw [definedBy_append, List.flatMap_map]
      simpa [he, Node.replaceInput] using hdefined

/-- Retiring a node keeps a graph well-formed. -/
theorem WellFormed.retire {new : ValueId} (h : g.WellFormed)
    (hsplit : g.nodes = before ++ node :: after) (hout : node.outputs = [old])
    (hnew : new ∈ definedBy g.inputs before) : (g.retire node.id old new).WellFormed := by
  refine ⟨h.form.retire hsplit hout hnew, fun n hn => ?_, fun n hn => ?_⟩
  · obtain ⟨m, hm, rfl⟩ := exists_of_mem_retire h.form hsplit hout hn
    exact checkNode_replaceInput.mpr (h.arity m hm)
  · obtain ⟨m, hm, rfl⟩ := exists_of_mem_retire h.form hsplit hout hn
    exact h.issued m hm

end HybridGraph.Graph

/-! ## Ids that are left -/

namespace HybridGraph

/-- The most ids that the decomposition of a node of a kind takes. -/
def OpKind.demand : OpKind → Nat
  | .linear => 3
  | .silu => 2
  | .gelu => 8
  | _ => 0

/-- The most ids that the decomposition of nodes takes. -/
def Node.totalDemand (nodes : List Node) : Nat := (nodes.map fun node => node.kind.demand).sum

namespace Node

theorem totalDemand_append (front back : List Node) :
    totalDemand (front ++ back) = totalDemand front + totalDemand back := by
  rw [totalDemand, List.map_append, List.sum_append]
  rfl

theorem totalDemand_cons (node : Node) (nodes : List Node) :
    totalDemand (node :: nodes) = node.kind.demand + totalDemand nodes := rfl

/-- Nodes of the same kinds take as many ids. -/
theorem totalDemand_map {f : Node → Node} {nodes : List Node}
    (hf : ∀ node ∈ nodes, (f node).kind = node.kind) :
    totalDemand (nodes.map f) = totalDemand nodes := by
  unfold totalDemand
  rw [List.map_map]
  exact congrArg List.sum (List.map_congr_left fun node hn => congrArg OpKind.demand (hf node hn))

theorem totalDemand_le_of_sublist {nodes nodes' : List Node} (h : nodes'.Sublist nodes) :
    totalDemand nodes' ≤ totalDemand nodes :=
  (h.map _).sum_le_sum fun _ _ => Nat.zero_le _

theorem totalDemand_eq_zero {nodes : List Node} (h : ∀ node ∈ nodes, node.kind.demand = 0) :
    totalDemand nodes = 0 := by
  refine List.sum_eq_zero fun number hmem => ?_
  obtain ⟨node, hn, rfl⟩ := List.mem_map.mp hmem
  exact h node hn

end Node

namespace Graph

/-- The most ids that the decomposition of a graph takes. -/
def demand (g : Graph) : Nat := Node.totalDemand g.nodes

/-- A well-formed graph with ids enough for its decomposition. -/
structure Ready (g : Graph) : Prop extends WellFormed g where
  room : g.nextNode + g.demand < 2 ^ 32

/-- There are ids for the decomposition of any node. -/
theorem Ready.room_of_mem {g : Graph} (h : g.Ready) {node : Node} (hn : node ∈ g.nodes) :
    g.nextNode + node.kind.demand < 2 ^ 32 := by
  obtain ⟨before, after, hsplit⟩ := List.append_of_mem hn
  have hroom := h.room
  rw [demand, hsplit, Node.totalDemand_append, Node.totalDemand_cons] at hroom
  omega

end Graph

/-! ## Preservation -/

/-- What is kept when one graph takes the place of another. -/
structure Graph.Extends (g g' : Graph) : Prop where
  wellFormed : g'.WellFormed
  inputs : g'.inputs = g.inputs
  outputs : g'.outputs.length = g.outputs.length
  later : g.nextNode ≤ g'.nextNode
  origin : ∀ node ∈ g'.nodes, node.id.number < g.nextNode →
    ∃ old ∈ g.nodes, old.id = node.id ∧ old.kind = node.kind

/-- The new graph moreover takes the ids that it needs from those that the old one needed. -/
structure Graph.Preserves (g g' : Graph) : Prop extends Graph.Extends g g' where
  spends : g'.nextNode + g'.demand ≤ g.nextNode + g.demand

namespace Graph

variable {g g' g'' : Graph}

theorem Extends.refl (h : g.WellFormed) : g.Extends g :=
  ⟨h, rfl, rfl, Nat.le_refl _, fun node hn _ => ⟨node, hn, rfl, rfl⟩⟩

theorem Extends.trans (h : g.Extends g') (h' : g'.Extends g'') : g.Extends g'' where
  wellFormed := h'.wellFormed
  inputs := h'.inputs.trans h.inputs
  outputs := h'.outputs.trans h.outputs
  later := Nat.le_trans h.later h'.later
  origin := by
    intro node hn hid
    obtain ⟨mid, hmid, hsame, hkind⟩ := h'.origin node hn (Nat.lt_of_lt_of_le hid h.later)
    obtain ⟨old, hold, hsame', hkind'⟩ := h.origin mid hmid (hsame ▸ hid)
    exact ⟨old, hold, hsame'.trans hsame, hkind'.trans hkind⟩

theorem Preserves.refl (h : g.WellFormed) : g.Preserves g := ⟨.refl h, Nat.le_refl _⟩

theorem Preserves.trans (h : g.Preserves g') (h' : g'.Preserves g'') : g.Preserves g'' :=
  ⟨h.toExtends.trans h'.toExtends, Nat.le_trans h'.spends h.spends⟩

/-- What is left of a ready graph is ready. -/
theorem Preserves.ready (h : g.Preserves g') (hg : g.Ready) : g'.Ready :=
  ⟨h.wellFormed, Nat.lt_of_le_of_lt h.spends hg.room⟩

/-- The ids belong to nodes of kinds with a property, if to any. -/
def OfKind (g : Graph) (p : OpKind → Prop) (ids : List NodeId) : Prop :=
  ∀ id ∈ ids, id.number < g.nextNode ∧ ∀ node ∈ g.nodes, node.id = id → p node.kind

/-- What the remaining visits of a sweep know about their nodes survives a change. -/
theorem OfKind.of_preserves {p : OpKind → Prop} {ids : List NodeId} (h : g.OfKind p ids)
    (hg : g.Preserves g') : g'.OfKind p ids := by
  intro id hid
  obtain ⟨hissued, hkind⟩ := h id hid
  refine ⟨Nat.lt_of_lt_of_le hissued hg.later, ?_⟩
  rintro node hn rfl
  obtain ⟨old, hold, hsame, heq⟩ := hg.origin node hn hissued
  exact heq ▸ hkind old hold hsame

theorem ofKind_map_id {p : OpKind → Prop} {nodes : List Node} (h : g.WellFormed)
    (hsub : nodes ⊆ g.nodes) (hp : ∀ node ∈ nodes, p node.kind) :
    g.OfKind p (nodes.map Node.id) := by
  intro id hid
  obtain ⟨node, hn, rfl⟩ := List.mem_map.mp hid
  refine ⟨h.issued node (hsub hn), fun other ho hsame => ?_⟩
  rw [h.form.nodes.eq_of_id ho (hsub hn) hsame]
  exact hp node hn

/-- Retiring a node in favour of a value that exists before it. -/
theorem Extends.retire {before after : List Node} {node : Node} {old new : ValueId}
    (h : g.WellFormed) (hsplit : g.nodes = before ++ node :: after) (hout : node.outputs = [old])
    (hnew : new ∈ definedBy g.inputs before) : g.Extends (g.retire node.id old new) where
  wellFormed := h.retire hsplit hout hnew
  inputs := rfl
  outputs := List.length_map _
  later := Nat.le_refl _
  origin := by
    intro n hn _
    obtain ⟨m, hm, rfl⟩ := exists_of_mem_retire h.form hsplit hout hn
    exact ⟨m, hm, rfl, rfl⟩

/-- The ids that a retired node might have taken are left over. -/
theorem demand_retire {before after : List Node} {node : Node} {old : ValueId} (new : ValueId)
    (h : g.SingleAssignment) (hsplit : g.nodes = before ++ node :: after)
    (hout : node.outputs = [old]) :
    (g.retire node.id old new).demand + node.kind.demand = g.demand := by
  have hkinds : ∀ n ∈ after, (n.replaceInput old new).kind = n.kind := fun _ _ => rfl
  unfold demand
  rw [nodes_retire new h hsplit hout, hsplit, Node.totalDemand_append, Node.totalDemand_append,
    Node.totalDemand_cons, Node.totalDemand_map hkinds]
  omega

theorem Preserves.retire {before after : List Node} {node : Node} {old new : ValueId}
    (h : g.WellFormed) (hsplit : g.nodes = before ++ node :: after) (hout : node.outputs = [old])
    (hnew : new ∈ definedBy g.inputs before) : g.Preserves (g.retire node.id old new) where
  toExtends := .retire h hsplit hout hnew
  spends := by
    have hdemand := demand_retire new h.form hsplit hout
    show g.nextNode + _ ≤ _
    omega

/-- Narrowing nodes of the same kind. -/
theorem Preserves.map {f : Node → Node} (h : g.WellFormed)
    (hf : ∀ node ∈ g.nodes, (f node).Narrows node)
    (hkind : ∀ node ∈ g.nodes, (f node).kind = node.kind)
    (harity : ∀ node ∈ g.nodes, checkNode (f node) = .ok ()) :
    g.Preserves { g with nodes := g.nodes.map f } where
  wellFormed := h.map hf harity
  inputs := rfl
  outputs := rfl
  later := Nat.le_refl _
  origin := by
    intro n hn _
    obtain ⟨m, hm, rfl⟩ := List.mem_map.mp hn
    exact ⟨m, hm, (hf m hm).id.symm, (hkind m hm).symm⟩
  spends := Nat.add_le_add_left (Node.totalDemand_map hkind).le _

end Graph

end HybridGraph
