import HybridGraph.Proofs.Graph.SingleAssignment
import Mathlib.Algebra.Group.Nat.Defs
import Mathlib.Data.List.Perm.Subperm
/-!
# Well-formed graphs

A graph is well-formed if it is accepted and all its node ids have been handed out.  Three changes
of a node list keep it in order: narrowing what nodes read, dropping nodes whose results no
remaining node reads, and adding a node in front of others.  Retiring a node keeps it in order if
the value that takes the place of its result exists before it:

    InOrder arena inputs (before ++ node :: after) → node.outputs = [old] →
      new ∈ definedBy inputs before →
      InOrder arena inputs (before ++ after.map (Node.replaceInput old new))   (InOrder.retire)
-/

namespace HybridGraph

/-! ## Node numbers -/

namespace NodeId

/-- Before the last number counting is adding. -/
theorem next_eq {number : Nat} (h : number + 1 < 2 ^ 32) : next number = number + 1 :=
  Nat.mod_eq_of_lt h

theorem next_lt (number : Nat) : next number < 2 ^ 32 := Nat.mod_lt _ (Nat.two_pow_pos 32)

/-- Counting so many times. -/
def nextAfter (number : Nat) : Nat → Nat
  | 0 => number
  | count + 1 => next (nextAfter number count)

theorem nextAfter_eq {number count : Nat} (h : number + count < 2 ^ 32) :
    nextAfter number count = number + count := by
  induction count with
  | zero => rfl
  | succ count ih =>
    rw [nextAfter, ih (by omega), next_eq (by omega)]
    rfl

/-- Counting on from the next number. -/
theorem nextAfter_next (number count : Nat) :
    nextAfter (next number) count = nextAfter number (count + 1) := by
  induction count with
  | zero => rfl
  | succ count ih => exact congrArg next ih

theorem nextAfter_lt {number : Nat} (h : number < 2 ^ 32) (count : Nat) :
    nextAfter number count < 2 ^ 32 := by
  cases count with
  | zero => exact h
  | succ count => exact next_lt _

/-- Distinct ids below a bound are not more than the bound. -/
theorem length_le {ids : List NodeId} {bound : Nat} (hdistinct : ids.Nodup)
    (hlt : ∀ id ∈ ids, id.number < bound) : ids.length ≤ bound := by
  have hnumbers : (ids.map number).Nodup := hdistinct.map fun _ _ => congrArg NodeId.mk
  have hsub : ids.map number ⊆ List.range bound :=
    List.forall_mem_map.mpr fun id hid => List.mem_range.mpr (hlt id hid)
  simpa using (List.subperm_of_subset hnumbers hsub).length_le

end NodeId

/-! ## Accepted graphs -/

namespace Graph

variable {g : Graph}

theorem node?_id (hg : g.SingleAssignment) {node : Node} (hn : node ∈ g.nodes) :
    g.node? node.id = some node := by
  unfold node?
  cases hfind : g.nodes.find? (·.id = node.id) with
  | none => exact absurd (List.find?_eq_none.mp hfind node hn) (by simp)
  | some other =>
    have hid : other.id = node.id := by simpa using List.find?_some hfind
    rw [hg.nodes.eq_of_id (List.mem_of_find?_eq_some hfind) hn hid]

/-- A graph is accepted if it is in single assignment form and its nodes have their arities. -/
theorem verify_eq_ok :
    g.verify = .ok () ↔ g.SingleAssignment ∧ ∀ node ∈ g.nodes, checkNode node = .ok () := by
  unfold verify
  simp only [Outcome.bind_eq_ok, Outcome.forM_eq_ok]
  constructor
  · rintro ⟨index, hindex, hall⟩
    exact ⟨(GraphIndex.describes_of_build hindex).1, hall⟩
  · rintro ⟨hform, hall⟩
    obtain ⟨index, hindex⟩ := GraphIndex.exists_build hform
    exact ⟨index, hindex, hall⟩

/-- A graph that is accepted and whose node ids have all been handed out. -/
structure WellFormed (g : Graph) : Prop where
  form : g.SingleAssignment
  arity : ∀ node ∈ g.nodes, checkNode node = .ok ()
  issued : ∀ node ∈ g.nodes, node.id.number < g.nextNode

theorem wellFormed_iff :
    g.WellFormed ↔ g.verify = .ok () ∧ ∀ node ∈ g.nodes, node.id.number < g.nextNode := by
  rw [verify_eq_ok]
  constructor
  · rintro ⟨hform, harity, hissued⟩
    exact ⟨⟨hform, harity⟩, hissued⟩
  · rintro ⟨⟨hform, harity⟩, hissued⟩
    exact ⟨hform, harity, hissued⟩

/-- Every value that exists belongs to the arena. -/
theorem SingleAssignment.index_lt (h : g.SingleAssignment) {v : ValueId}
    (hv : v ∈ definedBy g.inputs g.nodes) : v.index < g.values.size := by
  rcases mem_definedBy.mp hv with hv | ⟨node, hn, hv⟩
  · exact h.known v hv
  · obtain ⟨before, after, hsplit⟩ := List.append_of_mem hn
    exact (h.nodes before node after hsplit).known v hv

theorem mem_of_node? {id : NodeId} {node : Node} (h : g.node? id = some node) :
    node ∈ g.nodes ∧ node.id = id :=
  ⟨List.mem_of_find?_eq_some h, by simpa using List.find?_some h⟩

/-! ## Adding values -/

/-- The values of a graph are values of another one, which may have more. -/
def Grows (g g' : Graph) : Prop := ∀ i < g.values.size, g'.values[i]? = g.values[i]?

section

variable {g' g'' : Graph} {v : ValueId}

theorem Grows.of_eq (h : g'.values = g.values) : g.Grows g' := by
  intro i _
  rw [h]

theorem Grows.size_le (h : g.Grows g') : g.values.size ≤ g'.values.size := by
  by_contra hlt
  rw [Nat.not_le] at hlt
  have hsame := h g'.values.size hlt
  rw [Array.getElem?_eq_none (Nat.le_refl _), Array.getElem?_eq_getElem hlt] at hsame
  cases hsame

theorem Grows.trans (h : g.Grows g') (h' : g'.Grows g'') : g.Grows g'' := fun i hi =>
  (h' i (Nat.lt_of_lt_of_le hi h.size_le)).trans (h i hi)

theorem Grows.of_push {data : ValueInfo} (h : g'.values = g.values.push data) : g.Grows g' := by
  intro i hi
  rw [h, Array.getElem?_push_lt hi, Array.getElem?_eq_getElem hi]

theorem Grows.tensorType? (h : g.Grows g') (hv : v.index < g.values.size) :
    g'.tensorType? v = g.tensorType? v := by
  unfold Graph.tensorType? type? value?
  rw [h _ hv]

theorem Grows.typeOf (h : g.Grows g') (hv : v.index < g.values.size) :
    g'.typeOf v = g.typeOf v := by
  rw [Graph.typeOf, Graph.typeOf, Graph.type?, Graph.type?, Graph.value?, Graph.value?, h _ hv]

theorem Grows.isTensor (h : g.Grows g') (hv : v.index < g.values.size) :
    g'.isTensor v = g.isTensor v := congrArg Option.isSome (h.tensorType? hv)

/-- What is known to be a tensor exists. -/
theorem index_lt_of_isTensor (h : g.isTensor v = true) : v.index < g.values.size := by
  by_contra hlt
  unfold Graph.isTensor Graph.tensorType? type? value? at h
  rw [Array.getElem?_eq_none (Nat.le_of_not_lt hlt)] at h
  cases h

end

end Graph

/-! ## Arities -/

/-- Whether a kind may have so many operands and results. -/
def OpKind.admits (kind : OpKind) (inputs outputs : Nat) : Bool :=
  kind.inputArity?.all (·.admits inputs) && kind.outputArity?.all (·.admits outputs)

theorem Graph.checkNode_eq_ok {node : Node} :
    checkNode node = .ok () ↔ node.kind.admits node.inputs.length node.outputs.length = true := by
  have harity : ∀ (side : NodeSide) (found : Nat) (arity : Option OpKind.Arity),
      checkArity node side found arity = .ok () ↔ arity.all (·.admits found) = true := by
    intro side found arity
    cases arity with
    | none => simp [checkArity]
    | some expected => by_cases h : expected.admits found = true <;> simp [checkArity, h]
  unfold checkNode OpKind.admits
  rw [Outcome.bind_eq_ok, Bool.and_eq_true, ← harity .inputs, ← harity .outputs]
  constructor
  · rintro ⟨⟨⟩, hinputs, houtputs⟩
    exact ⟨hinputs, houtputs⟩
  · rintro ⟨hinputs, houtputs⟩
    exact ⟨(), hinputs, houtputs⟩

/-- A node of a kind with exactly one result has one result. -/
theorem Graph.exists_output_of_checkNode {node : Node} (h : checkNode node = .ok ())
    (hone : node.kind.outputArity? = some ⟨1, 1⟩) : ∃ out, node.outputs = [out] := by
  have harity := Graph.checkNode_eq_ok.mp h
  rw [OpKind.admits, hone, Bool.and_eq_true] at harity
  have hlen : node.outputs.length = 1 := by
    have := harity.2
    simp only [Option.all_some, OpKind.Arity.admits, Bool.and_eq_true, decide_eq_true_eq] at this
    omega
  exact List.length_eq_one_iff.mp hlen

theorem Graph.WellFormed.exists_output {g : Graph} (h : g.WellFormed) {node : Node}
    (hn : node ∈ g.nodes) (hone : node.kind.outputArity? = some ⟨1, 1⟩) :
    ∃ out, node.outputs = [out] := exists_output_of_checkNode (h.arity node hn) hone

/-- The number of operands lies in the range of the kind. -/
theorem Graph.WellFormed.operandCount {g : Graph} (h : g.WellFormed) {node : Node}
    (hn : node ∈ g.nodes) {arity : OpKind.Arity} (hrange : node.kind.inputArity? = some arity) :
    arity.low ≤ node.inputs.length ∧ node.inputs.length ≤ arity.high := by
  have harity := Graph.checkNode_eq_ok.mp (h.arity node hn)
  rw [OpKind.admits, hrange, Bool.and_eq_true] at harity
  have hinputs := harity.1
  simpa only [Option.all_some, OpKind.Arity.admits, Bool.and_eq_true, decide_eq_true_eq]
    using hinputs

/-! ## Changing one node -/

/-- One node may stand in the place of another: id and results are the same, and it reads no other
values. -/
structure Node.Narrows (narrow node : Node) : Prop where
  id : narrow.id = node.id
  outputs : narrow.outputs = node.outputs
  inputs : narrow.inputs ⊆ node.inputs

theorem Node.Narrows.refl (node : Node) : node.Narrows node := ⟨rfl, rfl, List.Subset.refl _⟩

/-- A node that does not read the old value stays as it is. -/
theorem Node.replaceInput_eq_self {old new : ValueId} {node : Node} (h : old ∉ node.inputs) :
    node.replaceInput old new = node := by
  have hinputs : node.inputs.map (fun v => if v = old then new else v) = node.inputs := by
    conv_rhs => rw [← List.map_id node.inputs]
    refine List.map_congr_left fun v hv => if_neg ?_
    rintro rfl
    exact h hv
  unfold replaceInput
  rw [hinputs]

theorem Node.mem_inputs_replaceInput {old new v : ValueId} {node : Node}
    (h : v ∈ (node.replaceInput old new).inputs) :
    (v = new ∧ old ∈ node.inputs) ∨ (v ≠ old ∧ v ∈ node.inputs) := by
  obtain ⟨w, hw, rfl⟩ := List.mem_map.mp h
  by_cases he : w = old
  · rw [if_pos he]
    exact .inl ⟨rfl, he ▸ hw⟩
  · rw [if_neg he]
    exact .inr ⟨he, hw⟩

/-! ## Changing a list of nodes in order -/

section

variable {arena arena' : Nat} {inputs : List ValueId} {nodes front back before after : List Node}
  {node : Node}

theorem definedBy_map {f : Node → Node} (hf : ∀ node ∈ nodes, (f node).outputs = node.outputs) :
    definedBy inputs (nodes.map f) = definedBy inputs nodes := by
  unfold definedBy
  rw [List.flatMap_map]
  exact congrArg (inputs ++ ·) (List.flatMap_congr hf)

/-- A front part of a list in order is in order. -/
theorem InOrder.of_append (h : InOrder arena inputs (front ++ back)) :
    InOrder arena inputs front := by
  intro before node after hsplit
  refine h before node (after ++ back) ?_
  rw [hsplit, List.append_assoc, List.cons_append]

/-- Nodes may be narrowed. -/
theorem InOrder.map {f : Node → Node} (h : InOrder arena inputs nodes)
    (hf : ∀ node ∈ nodes, (f node).Narrows node) : InOrder arena inputs (nodes.map f) := by
  induction nodes using List.reverseRecOn with
  | nil => exact h
  | append_singleton nodes node ih =>
    obtain ⟨hnodes, hnode⟩ := inOrder_concat.mp h
    have hfront : ∀ n ∈ nodes, (f n).Narrows n := fun n hn => hf n (List.mem_append_left _ hn)
    have hlast := hf node (List.mem_append_right _ List.mem_cons_self)
    have hids : (nodes.map f).map Node.id = nodes.map Node.id := by
      rw [List.map_map]
      exact List.map_congr_left fun n hn => (hfront n hn).id
    have hdefined : definedBy inputs (nodes.map f) = definedBy inputs nodes :=
      definedBy_map fun n hn => (hfront n hn).outputs
    rw [List.map_append, List.map_singleton]
    refine inOrder_concat.mpr ⟨ih hnodes hfront, ?_⟩
    exact {
      fresh := by
        rw [hids, hlast.id]
        exact hnode.fresh
      reads := by
        intro v hv
        rw [hdefined]
        exact hnode.reads v (hlast.inputs hv)
      distinct := hlast.outputs ▸ hnode.distinct
      unassigned := by
        rw [hdefined, hlast.outputs]
        exact hnode.unassigned
      known := hlast.outputs ▸ hnode.known }

/-- Nodes may be dropped if what the others read is still defined. -/
theorem InOrder.filter {keep : Node → Bool} (h : InOrder arena inputs nodes)
    (hkeep : ∀ node ∈ nodes, keep node = true → ∀ v ∈ node.inputs, ∀ definer ∈ nodes,
      v ∈ definer.outputs → keep definer = true) : InOrder arena inputs (nodes.filter keep) := by
  induction nodes using List.reverseRecOn with
  | nil => exact h
  | append_singleton nodes node ih =>
    obtain ⟨hnodes, hnode⟩ := inOrder_concat.mp h
    have hrest := ih hnodes fun n hn hk v hv d hd hout =>
      hkeep n (List.mem_append_left _ hn) hk v hv d (List.mem_append_left _ hd) hout
    rw [List.filter_append, List.filter_singleton]
    cases hk : keep node with
    | false =>
      rw [cond_false, List.append_nil]
      exact hrest
    | true =>
      rw [cond_true]
      refine inOrder_concat.mpr ⟨hrest, ?_⟩
      have hsub : definedBy inputs (nodes.filter keep) ⊆ definedBy inputs nodes := by
        intro v hv
        rw [mem_definedBy] at hv ⊢
        exact hv.imp_right fun ⟨n, hn, hout⟩ => ⟨n, List.mem_of_mem_filter hn, hout⟩
      exact {
        fresh := by
          intro hm
          obtain ⟨n, hn, hid⟩ := List.mem_map.mp hm
          exact hnode.fresh (List.mem_map.mpr ⟨n, List.mem_of_mem_filter hn, hid⟩)
        reads := by
          intro v hv
          have hdefined := hnode.reads v hv
          rw [mem_definedBy] at hdefined ⊢
          refine hdefined.imp_right fun ⟨d, hd, hout⟩ => ⟨d, List.mem_filter.mpr ⟨hd, ?_⟩, hout⟩
          exact hkeep node (by simp) hk v hv d (List.mem_append_left _ hd) hout
        distinct := hnode.distinct
        unassigned := fun v hv hm => hnode.unassigned v hv (hsub hm)
        known := hnode.known }

/-- A node with new results may be added in front of others. -/
theorem InOrder.insert (h : InOrder arena inputs (front ++ back)) (hle : arena ≤ arena')
    (hnode : node.MayFollow arena' inputs front) (hid : node.id ∉ back.map Node.id)
    (hnew : ∀ v ∈ node.outputs, arena ≤ v.index) :
    InOrder arena' inputs (front ++ node :: back) := by
  induction back using List.reverseRecOn with
  | nil =>
    rw [List.append_nil] at h
    refine inOrder_concat.mpr ⟨fun before n after hsplit => ?_, hnode⟩
    obtain ⟨h1, h2, h3, h4, h5⟩ := h before n after hsplit
    exact ⟨h1, h2, h3, h4, fun v hv => Nat.lt_of_lt_of_le (h5 v hv) hle⟩
  | append_singleton back last ih =>
    rw [← List.append_assoc] at h
    obtain ⟨hrest, hlast⟩ := inOrder_concat.mp h
    rw [List.map_append, List.map_singleton, List.mem_append, List.mem_singleton, not_or] at hid
    have hdefined : ∀ v, v ∈ definedBy inputs (front ++ node :: back) ↔
        v ∈ definedBy inputs (front ++ back) ∨ v ∈ node.outputs := by
      intro v
      simp only [definedBy, List.flatMap_append, List.flatMap_cons, List.mem_append]
      tauto
    rw [← List.cons_append, ← List.append_assoc]
    refine inOrder_concat.mpr ⟨ih hrest hid.1, ?_⟩
    exact {
      fresh := by
        intro hm
        rw [List.map_append, List.map_cons, List.mem_append, List.mem_cons] at hm
        have hold := hlast.fresh
        rw [List.map_append, List.mem_append] at hold
        rcases hm with hm | hm | hm
        · exact hold (.inl hm)
        · exact hid.2 hm.symm
        · exact hold (.inr hm)
      reads := fun v hv => (hdefined v).mpr (.inl (hlast.reads v hv))
      distinct := hlast.distinct
      unassigned := by
        intro v hv hm
        rcases (hdefined v).mp hm with hm | hm
        · exact hlast.unassigned v hv hm
        · exact absurd (hlast.known v hv) (Nat.not_lt.mpr (hnew v hm))
      known := fun v hv => Nat.lt_of_lt_of_le (hlast.known v hv) hle }

/-- A node with one result may be retired: later nodes read an earlier value instead. -/
theorem InOrder.retire {old new : ValueId} (h : InOrder arena inputs (before ++ node :: after))
    (hout : node.outputs = [old]) (hnew : new ∈ definedBy inputs before) :
    InOrder arena inputs (before ++ after.map (Node.replaceInput old new)) := by
  induction after using List.reverseRecOn with
  | nil =>
    rw [List.map_nil, List.append_nil]
    exact h.of_append
  | append_singleton after last ih =>
    rw [← List.cons_append, ← List.append_assoc] at h
    obtain ⟨hrest, hlast⟩ := inOrder_concat.mp h
    have hdefined : ∀ v, v ∈ definedBy inputs (before ++ node :: after) ↔
        v = old ∨ v ∈ definedBy inputs (before ++ after.map (Node.replaceInput old new)) := by
      intro v
      have hmap : (after.map (Node.replaceInput old new)).flatMap Node.outputs =
          after.flatMap Node.outputs := List.flatMap_map ..
      simp only [definedBy, List.flatMap_append, List.flatMap_cons, List.mem_append, hout, hmap,
        List.mem_singleton]
      tauto
    rw [List.map_append, List.map_singleton, ← List.append_assoc]
    refine inOrder_concat.mpr ⟨ih hrest, ?_⟩
    exact {
      fresh := by
        have hids : (after.map (Node.replaceInput old new)).map Node.id = after.map Node.id :=
          List.map_map
        have hold := hlast.fresh
        rw [List.map_append, List.map_cons, List.mem_append, List.mem_cons] at hold
        rw [List.map_append, hids, List.mem_append]
        tauto
      reads := by
        intro v hv
        rcases Node.mem_inputs_replaceInput hv with ⟨rfl, -⟩ | ⟨hne, hv⟩
        · exact definedBy_subset_append inputs before _ hnew
        · exact ((hdefined v).mp (hlast.reads v hv)).resolve_left hne
      distinct := hlast.distinct
      unassigned := fun v hv hm => hlast.unassigned v hv ((hdefined v).mpr (.inr hm))
      known := hlast.known }

end

/-! ## Changing a graph -/

namespace Graph

variable {g : Graph}

/-- Nodes may be dropped if what the others read is still defined. -/
theorem SingleAssignment.filter (h : g.SingleAssignment) {keep : Node → Bool}
    (hkeep : ∀ node ∈ g.nodes, keep node = true → ∀ v ∈ node.inputs, ∀ definer ∈ g.nodes,
      v ∈ definer.outputs → keep definer = true)
    (houtputs : ∀ v ∈ g.outputs, ∀ definer ∈ g.nodes, v ∈ definer.outputs →
      keep definer = true) : SingleAssignment { g with nodes := g.nodes.filter keep } where
  distinct := h.distinct
  known := h.known
  nodes := h.nodes.filter hkeep
  outputs := by
    intro v hv
    have hdefined := h.outputs v hv
    rw [mem_definedBy] at hdefined ⊢
    exact hdefined.imp_right fun ⟨d, hd, hout⟩ =>
      ⟨d, List.mem_filter.mpr ⟨hd, houtputs v hv d hd hout⟩, hout⟩

/-- Nodes may be narrowed. -/
theorem SingleAssignment.map (h : g.SingleAssignment) {f : Node → Node}
    (hf : ∀ node ∈ g.nodes, (f node).Narrows node) :
    SingleAssignment { g with nodes := g.nodes.map f } where
  distinct := h.distinct
  known := h.known
  nodes := h.nodes.map hf
  outputs := by
    intro v hv
    show v ∈ definedBy g.inputs (g.nodes.map f)
    rw [definedBy_map fun node hn => (hf node hn).outputs]
    exact h.outputs v hv

/-- Nodes of a well-formed graph may be dropped if what the others read is still defined. -/
theorem WellFormed.filter (h : g.WellFormed) {keep : Node → Bool}
    (hkeep : ∀ node ∈ g.nodes, keep node = true → ∀ v ∈ node.inputs, ∀ definer ∈ g.nodes,
      v ∈ definer.outputs → keep definer = true)
    (houtputs : ∀ v ∈ g.outputs, ∀ definer ∈ g.nodes, v ∈ definer.outputs →
      keep definer = true) : WellFormed { g with nodes := g.nodes.filter keep } where
  form := h.form.filter hkeep houtputs
  arity node hn := h.arity node (List.mem_of_mem_filter hn)
  issued node hn := h.issued node (List.mem_of_mem_filter hn)

/-- Nodes of a well-formed graph may be narrowed as long as their arities hold. -/
theorem WellFormed.map (h : g.WellFormed) {f : Node → Node}
    (hf : ∀ node ∈ g.nodes, (f node).Narrows node)
    (harity : ∀ node ∈ g.nodes, checkNode (f node) = .ok ()) :
    WellFormed { g with nodes := g.nodes.map f } where
  form := h.form.map hf
  arity node hn := by
    obtain ⟨old, hold, rfl⟩ := List.mem_map.mp hn
    exact harity old hold
  issued node hn := by
    obtain ⟨old, hold, rfl⟩ := List.mem_map.mp hn
    rw [(hf old hold).id]
    exact h.issued old hold

end Graph

theorem verify_activations : Graph.activations.verify = .ok () := by
  refine Graph.verify_eq_ok.mpr ⟨Graph.singleAssignment_activations, fun node hn => ?_⟩
  rcases List.mem_cons.mp hn with rfl | hn
  · rfl
  · obtain rfl := List.mem_singleton.mp hn
    rfl

end HybridGraph
