import HybridGraph.Lowering.DeadCode
import HybridGraph.Lowering.Simplification
import HybridGraph.Proofs.Lowering.Preservation
/-!
# What simplifying passes do to a node

A fold drops operands of a node and writes attributes instead; which operands and when is said by
`foldAttributes?_eq_some` and `foldOther?_eq_some`.  The node keeps its id, kind and results and
has operands enough.  Writing defaults out changes attributes only (`normalize_eq`).  A sweep
retires the nodes that were identities when it began; each of them still has one result when its
turn comes and reads a value that exists before it.

The needed values are closed: they hold the graph outputs, what nodes with side effects read, and
what the definers of needed values read.  A node stays exactly if it has side effects or defines a
needed value, so everything that a remaining node reads is still defined:

    node.id ∈ kept g ↔ node.kind.hasSideEffects ∨ ∃ v ∈ node.outputs, v ∈ needed g    (mem_kept_iff)

So all four passes keep graphs well-formed (`preserves_run`).
-/

/-! ## Scalar constants -/

namespace HybridGraph.Graph

variable {g : Graph} {v : ValueId} {a : Attr}

/-- A scalar constant comes from a constant node, and its value is no tensor. -/
theorem exists_of_scalarConstant? (h : g.scalarConstant? v = some a) :
    ∃ node ∈ g.nodes, v ∈ node.outputs ∧ node.kind = .constant ∧ g.isTensor v = false ∧
      node.attr? "value" = some a := by
  obtain ⟨node, hfind, h⟩ := Option.bind_eq_some_iff.mp h
  split at h
  · next hconstant =>
    exact ⟨node, List.mem_of_find?_eq_some hfind, by simpa using List.find?_some hfind,
      hconstant.1, by simpa using hconstant.2, h⟩
  · cases h

/-- In a graph in single assignment form the producer of a value is the node that defines it. -/
theorem producer?_eq (hg : g.SingleAssignment) {node : Node} (hn : node ∈ g.nodes)
    (hv : v ∈ node.outputs) : g.producer? v = some node := by
  unfold producer?
  cases hfind : g.nodes.find? (·.outputs.contains v) with
  | none => exact absurd (by simpa using hv) (List.find?_eq_none.mp hfind node hn)
  | some other =>
    rw [hg.nodes.eq_of_output hn (List.mem_of_find?_eq_some hfind) hv
      (by simpa using List.find?_some hfind)]

theorem scalarConstant?_eq_some (hg : g.SingleAssignment) : g.scalarConstant? v = some a ↔
    ∃ node ∈ g.nodes, v ∈ node.outputs ∧ node.kind = .constant ∧ g.isTensor v = false ∧
      node.attr? "value" = some a := by
  refine ⟨exists_of_scalarConstant?, ?_⟩
  rintro ⟨node, hn, hv, hkind, htensor, hvalue⟩
  refine Option.bind_eq_some_iff.mpr ⟨node, producer?_eq hg hn hv, ?_⟩
  rw [if_pos ⟨hkind, by simp [htensor]⟩]
  exact hvalue

end HybridGraph.Graph

/-! ## Folding -/

namespace HybridGraph.Folding

open HybridGraph.Graph

variable {g : Graph}

theorem updateFirst_eq_map {id : NodeId} {change : Node → Node} {nodes : List Node}
    (h : (nodes.map Node.id).Nodup) :
    updateFirst id change nodes = nodes.map fun n => if n.id = id then change n else n := by
  induction nodes with
  | nil => rfl
  | cons node rest ih =>
    rw [List.map_cons, List.nodup_cons] at h
    rw [updateFirst, List.map_cons]
    by_cases hid : node.id = id
    · rw [if_pos hid, if_pos hid]
      congr 1
      conv_lhs => rw [← List.map_id rest]
      refine List.map_congr_left fun n hn => (if_neg ?_).symm
      rintro rfl
      exact h.1 (hid ▸ List.mem_map_of_mem hn)
    · rw [if_neg hid, if_neg hid, ih h.2]

theorem foldAttributes?_eq_some {node folded : Node} :
    foldAttributes? g node = some folded ↔ ∃ count entries,
      node.kind.tensorOperands? = some count ∧ count < node.inputs.length ∧
      node.inputs.length - count ≤ node.kind.attributeNames.length ∧
      trailing? g node count = some entries ∧
      { node with
        inputs := node.inputs.take count
        attrs := entries.foldl addFolded node.attrs } = folded := by
  unfold foldAttributes?
  simp only [Option.bind_eq_bind, Option.bind_eq_some_iff]
  refine exists_congr fun count => ?_
  constructor
  · rintro ⟨hcount, h⟩
    split at h
    · cases h
    · next hfits =>
      obtain ⟨entries, hentries, h⟩ := Option.bind_eq_some_iff.mp h
      exact ⟨entries, hcount, by omega, by omega, hentries, Option.some.inj h⟩
  · rintro ⟨entries, hcount, hlt, hle, hentries, h⟩
    refine ⟨hcount, ?_⟩
    rw [if_neg (by omega)]
    exact Option.bind_eq_some_iff.mpr ⟨entries, hentries, congrArg some h⟩

theorem foldOther?_eq_some {node folded : Node} :
    foldOther? g node = some folded ↔ ∃ x y other, node.kind.takesScalar = true ∧
      node.inputs = [x, y] ∧ (g.scalarConstant? y).bind Attr.float? = some other ∧
      { node with inputs := [x], attrs := node.attrs.insert "other" (.float other) } = folded := by
  unfold foldOther?
  constructor
  · intro h
    split at h
    · next x y hscalar hinputs =>
      obtain ⟨other, hother, h⟩ := Option.bind_eq_some_iff.mp h
      exact ⟨x, y, other, hscalar, hinputs, hother, Option.some.inj h⟩
    · cases h
  · rintro ⟨x, y, other, hscalar, hinputs, hother, h⟩
    rw [hscalar, hinputs]
    exact Option.bind_eq_some_iff.mpr ⟨other, hother, congrArg some h⟩

/-- A fold narrows a node, keeps its kind, and leaves it with operands enough. -/
structure Folds (node folded : Node) : Prop where
  narrows : folded.Narrows node
  kind : folded.kind = node.kind
  arity : checkNode folded = .ok ()

/-- A kind admits its tensor operands alone. -/
theorem inputArity?_tensorOperands {kind : OpKind} {count : Nat}
    (h : kind.tensorOperands? = some count) :
    kind.inputArity?.all (·.admits count) = true := by
  cases kind <;> cases h <;> rfl

/-- A kind that takes a scalar admits one operand. -/
theorem inputArity?_takesScalar {kind : OpKind} (h : kind.takesScalar = true) :
    kind.inputArity?.all (·.admits 1) = true := by
  cases kind <;> first | rfl | cases h

theorem narrows_foldAttributes {node folded : Node} (h : foldAttributes? g node = some folded) :
    folded.Narrows node := by
  obtain ⟨count, _, -, -, -, -, rfl⟩ := foldAttributes?_eq_some.mp h
  exact ⟨rfl, rfl, List.take_subset _ _⟩

theorem narrows_foldOther {node folded : Node} (h : foldOther? g node = some folded) :
    folded.Narrows node := by
  obtain ⟨x, y, _, -, hinputs, -, rfl⟩ := foldOther?_eq_some.mp h
  refine ⟨rfl, rfl, ?_⟩
  rw [hinputs]
  exact List.cons_subset_cons _ (List.nil_subset _)

theorem folds_foldAttributes {node folded : Node} (h : foldAttributes? g node = some folded)
    (harity : checkNode node = .ok ()) : Folds node folded := by
  have hnarrows := narrows_foldAttributes h
  obtain ⟨count, entries, hcount, hlt, -, -, rfl⟩ := foldAttributes?_eq_some.mp h
  refine ⟨hnarrows, rfl, checkNode_eq_ok.mpr ?_⟩
  have harity' := checkNode_eq_ok.mp harity
  rw [OpKind.admits, Bool.and_eq_true] at harity' ⊢
  refine ⟨?_, harity'.2⟩
  show node.kind.inputArity?.all (·.admits (node.inputs.take count).length) = true
  rw [List.length_take, Nat.min_eq_left (Nat.le_of_lt hlt)]
  exact inputArity?_tensorOperands hcount

theorem folds_foldOther {node folded : Node} (h : foldOther? g node = some folded)
    (harity : checkNode node = .ok ()) : Folds node folded := by
  have hnarrows := narrows_foldOther h
  obtain ⟨x, y, other, hscalar, hinputs, -, rfl⟩ := foldOther?_eq_some.mp h
  have harity' := checkNode_eq_ok.mp harity
  rw [OpKind.admits, Bool.and_eq_true] at harity'
  refine ⟨hnarrows, rfl, checkNode_eq_ok.mpr ?_⟩
  rw [OpKind.admits, Bool.and_eq_true]
  exact ⟨inputArity?_takesScalar hscalar, harity'.2⟩

/-- Applying a fold changes nodes into what they are folded to. -/
theorem exists_applyFold (fold? : Graph → Node → Option Node) (id : NodeId)
    {state : Graph × Nat} (h : state.1.SingleAssignment) :
    ∃ f : Node → Node,
      (applyFold fold? id state).1 = { state.1 with nodes := state.1.nodes.map f } ∧
      ∀ n ∈ state.1.nodes, f n = n ∨ fold? state.1 n = some (f n) := by
  unfold applyFold
  cases hnode : (state.1.node? id).bind (fold? state.1) with
  | none => exact ⟨fun n => n, by rw [List.map_id'], fun n _ => .inl rfl⟩
  | some folded =>
    obtain ⟨node, hfind, hfolded⟩ := Option.bind_eq_some_iff.mp hnode
    obtain ⟨hn, hid⟩ := mem_of_node? hfind
    refine ⟨fun n => if n.id = id then folded else n, ?_, fun n hn' => ?_⟩
    · show state.1.updateNode id (fun _ => folded) = _
      unfold updateNode
      rw [updateFirst_eq_map h.nodes.nodup]
    · by_cases he : n.id = id
      · obtain rfl := h.nodes.eq_of_id hn' hn (he.trans hid.symm)
        exact .inr (hfolded.trans (congrArg some (if_pos he).symm))
      · exact .inl (if_neg he)

theorem preserves_applyFold (fold? : Graph → Node → Option Node)
    (hfold : ∀ g node folded, fold? g node = some folded → checkNode node = .ok () →
      Folds node folded) (id : NodeId) {state : Graph × Nat} (h : state.1.WellFormed) :
    state.1.Preserves (applyFold fold? id state).1 := by
  obtain ⟨f, heq, hf⟩ := exists_applyFold fold? id h.form
  have hcases : ∀ n ∈ state.1.nodes, f n = n ∨ Folds n (f n) := fun n hn =>
    (hf n hn).imp_right fun hfolded => hfold _ _ _ hfolded (h.arity n hn)
  rw [heq]
  refine .map h (fun n hn => ?_) (fun n hn => ?_) fun n hn => ?_
  · rcases hcases n hn with hsame | hfolds
    · exact hsame.symm ▸ .refl n
    · exact hfolds.narrows
  · rcases hcases n hn with hsame | hfolds
    · rw [hsame]
    · exact hfolds.kind
  · rcases hcases n hn with hsame | hfolds
    · rw [hsame]
      exact h.arity n hn
    · exact hfolds.arity

theorem preserves_visit {state : Graph × Nat} (h : state.1.WellFormed) (id : NodeId) :
    state.1.Preserves (visit state id).1 := by
  have hfirst := preserves_applyFold foldAttributes? (fun _ _ _ => folds_foldAttributes) id h
  exact hfirst.trans
    (preserves_applyFold foldOther? (fun _ _ _ => folds_foldOther) id hfirst.wellFormed)

theorem preserves_foldl_visit (ids : List NodeId) {state : Graph × Nat} (h : state.1.WellFormed) :
    state.1.Preserves (ids.foldl visit state).1 := by
  induction ids generalizing state with
  | nil => exact .refl h
  | cons id ids ih =>
    have hfirst := preserves_visit h id
    exact hfirst.trans (ih hfirst.wellFormed)

/-- Folding keeps a graph well-formed. -/
theorem preserves_run {g : Graph} (h : g.WellFormed) : g.Preserves (run g).1 :=
  @preserves_foldl_visit g.nodeIds (g, 0) h

end HybridGraph.Folding

/-! ## Defaults -/

namespace HybridGraph.Defaults

open HybridGraph.Graph

variable {g : Graph} {node : Node}

theorem addDefault_eq (node : Node) (entry : String × Attr) :
    ∃ attrs, addDefault node entry = { node with attrs } := by
  unfold addDefault
  split
  · exact ⟨node.attrs, rfl⟩
  · exact ⟨node.attrs.insert entry.1 entry.2, rfl⟩

theorem wrapAxis_eq (rank : Nat) (node : Node) (name : String) :
    ∃ attrs, wrapAxis rank node name = { node with attrs } := by
  unfold wrapAxis
  split
  · next axis _ =>
    split
    · exact ⟨node.attrs.insert name (.int (axis + rank)), rfl⟩
    · exact ⟨node.attrs, rfl⟩
  · exact ⟨node.attrs, rfl⟩

/-- Steps that change attributes only, one after the other. -/
theorem foldl_eq {α : Type} {step : Node → α → Node}
    (hstep : ∀ node a, ∃ attrs, step node a = { node with attrs }) (as : List α) (node : Node) :
    ∃ attrs, as.foldl step node = { node with attrs } := by
  induction as generalizing node with
  | nil => exact ⟨node.attrs, rfl⟩
  | cons a as ih =>
    obtain ⟨attrs, hattrs⟩ := hstep node a
    obtain ⟨attrs', hattrs'⟩ := ih (step node a)
    refine ⟨attrs', ?_⟩
    rw [List.foldl_cons, hattrs', hattrs]

/-- Only the attributes of a node change. -/
theorem normalize_eq (g : Graph) (node : Node) :
    ∃ attrs, normalize g node = { node with attrs } := by
  unfold normalize
  obtain ⟨filled, hfilled⟩ := foldl_eq addDefault_eq (ofKind node.kind) node
  split
  · dsimp only
    split
    · next rank _ =>
      obtain ⟨wrapped, hwrapped⟩ := foldl_eq (wrapAxis_eq rank) (axisNames node.kind)
        ((ofKind node.kind).foldl addDefault node)
      refine ⟨wrapped, ?_⟩
      rw [hwrapped, hfilled]
    · exact ⟨filled, hfilled⟩
  · exact ⟨node.attrs, rfl⟩

/-- Writing defaults out keeps a graph well-formed. -/
theorem preserves_run (h : g.WellFormed) : g.Preserves (run g).1 := by
  refine .map h (fun node _ => ?_) (fun node _ => ?_) fun node hn => ?_
  · obtain ⟨attrs, hattrs⟩ := normalize_eq g node
    rw [hattrs]
    exact ⟨rfl, rfl, List.Subset.refl _⟩
  · obtain ⟨attrs, hattrs⟩ := normalize_eq g node
    rw [hattrs]
  · obtain ⟨attrs, hattrs⟩ := normalize_eq g node
    have harity := checkNode_eq_ok.mp (h.arity node hn)
    rw [hattrs]
    exact checkNode_eq_ok.mpr harity

end HybridGraph.Defaults

/-! ## Identities -/

namespace HybridGraph.Identities

open HybridGraph.Graph

variable {g : Graph} {node : Node}

/-- The kinds that can be identities. -/
def IsNeutral (kind : OpKind) : Prop := kind = .dropout ∨ kind = .contiguous ∨ kind = .to

/-- An identity has one operand and one result, and it is a dropout outside training, a
`contiguous`, or a conversion to the element type that is declared for its operand. -/
theorem exists_of_isIdentity (h : isIdentity g node = true) :
    ∃ x out, node.inputs = [x] ∧ node.outputs = [out] ∧
      (node.kind = .dropout ∧ node.bool? "train" = some false ∨ node.kind = .contiguous ∨
        node.kind = .to ∧ ∃ d, node.dtype? "dtype" = some d ∧ g.dtype? x = some d) := by
  unfold isIdentity at h
  split at h
  · next x out hinputs houtputs =>
    refine ⟨x, out, hinputs, houtputs, ?_⟩
    split at h
    · next hkind => exact .inl ⟨hkind, by simpa using h⟩
    · next hkind => exact .inr (.inl hkind)
    · next hkind =>
      split at h
      · next target htarget =>
        exact .inr (.inr ⟨hkind, target, htarget, by simpa using (Bool.and_eq_true_iff.mp h).2⟩)
      · cases h
    · cases h
  · cases h

theorem isNeutral_of_isIdentity (h : isIdentity g node = true) : IsNeutral node.kind := by
  obtain ⟨_, _, -, -, ⟨hkind, -⟩ | hkind | ⟨hkind, -⟩⟩ := exists_of_isIdentity h
  · exact .inl hkind
  · exact .inr (.inl hkind)
  · exact .inr (.inr hkind)

theorem IsNeutral.outputArity {kind : OpKind} (h : IsNeutral kind) :
    kind.outputArity? = some ⟨1, 1⟩ := by
  rcases h with rfl | rfl | rfl <;> rfl

theorem preserves_visit {state : Graph × Nat} {id : NodeId} (h : state.1.WellFormed)
    (hid : ∀ node ∈ state.1.nodes, node.id = id → IsNeutral node.kind) :
    state.1.Preserves (visit state id).1 := by
  unfold visit
  cases hfind : state.1.node? id with
  | none => exact .refl h
  | some node =>
    obtain ⟨hn, rfl⟩ := mem_of_node? hfind
    obtain ⟨out, hout⟩ := h.exists_output hn (hid node hn rfl).outputArity
    obtain ⟨before, after, hsplit⟩ := List.append_of_mem hn
    dsimp only
    split
    · next x xs _ _ hinputs houtputs =>
      rw [hout] at houtputs
      obtain ⟨rfl, -⟩ := List.cons.inj houtputs
      refine .retire h hsplit hout ?_
      exact (h.form.nodes before node after hsplit).reads x (hinputs ▸ List.mem_cons_self)
    · exact .refl h

theorem preserves_foldl_visit (ids : List NodeId) {state : Graph × Nat} (h : state.1.WellFormed)
    (hids : state.1.OfKind IsNeutral ids) : state.1.Preserves (ids.foldl visit state).1 := by
  induction ids generalizing state with
  | nil => exact .refl h
  | cons id ids ih =>
    have hfirst := preserves_visit h (hids id List.mem_cons_self).2
    refine hfirst.trans (ih hfirst.wellFormed (OfKind.of_preserves ?_ hfirst))
    exact fun other hother => hids other (List.mem_cons_of_mem _ hother)

/-- Retiring identities keeps a graph well-formed. -/
theorem preserves_run (h : g.WellFormed) : g.Preserves (run g).1 := by
  refine @preserves_foldl_visit (found g) (g, 0) h (ofKind_map_id h List.filter_sublist.subset ?_)
  exact fun node hn => isNeutral_of_isIdentity (List.mem_filter.mp hn).2

end HybridGraph.Identities

/-! ## Dead code -/

namespace HybridGraph.DeadCode

variable {g : Graph} {v : ValueId} {node : Node}

/-! ### The worklist -/

/-- Whatever was found or waits is found in the end. -/
theorem subset_discover (g : Graph) (found work : List ValueId) :
    found ⊆ discover g found work ∧ work ⊆ discover g found work := by
  fun_induction discover g found work with
  | case1 found => exact ⟨List.Subset.refl _, List.nil_subset _⟩
  | case2 found v work hv ih => exact ⟨ih.1, List.cons_subset.mpr ⟨ih.1 hv, ih.2⟩⟩
  | case3 found v work hv hd ih =>
    obtain ⟨hfound, hwork⟩ := ih
    rw [List.cons_subset] at hfound
    exact ⟨hfound.2, List.cons_subset.mpr ⟨hfound.1, hwork⟩⟩
  | case4 found v work hv node hd ih =>
    obtain ⟨hfound, hwork⟩ := ih
    rw [List.cons_subset] at hfound
    rw [List.append_subset] at hwork
    exact ⟨hfound.2, List.cons_subset.mpr ⟨hfound.1, hwork.2⟩⟩

/-- If what the definers of found values read is found or waits, all of it is found in the end. -/
theorem discover_closed {found work : List ValueId}
    (hclosed : ∀ v ∈ found, ∀ node, definer? g v = some node → node.inputs ⊆ found ++ work) :
    ∀ v ∈ discover g found work, ∀ node, definer? g v = some node →
      node.inputs ⊆ discover g found work := by
  fun_induction discover g found work with
  | case1 found =>
    intro v hv node hd
    simpa using hclosed v hv node hd
  | case2 found v work hv ih =>
    refine ih fun w hw node hd u hu => ?_
    have hu' := hclosed w hw node hd hu
    rw [List.mem_append, List.mem_cons] at hu'
    rw [List.mem_append]
    rcases hu' with hu' | rfl | hu'
    · exact .inl hu'
    · exact .inl hv
    · exact .inr hu'
  | case3 found v work hv hd ih =>
    refine ih fun w hw node hd' u hu => ?_
    rcases List.mem_cons.mp hw with rfl | hw
    · rw [hd] at hd'
      cases hd'
    · have hu' := hclosed w hw node hd' hu
      simp only [List.mem_append, List.mem_cons] at hu' ⊢
      tauto
  | case4 found v work hv node hd ih =>
    refine ih fun w hw other hd' u hu => ?_
    rcases List.mem_cons.mp hw with rfl | hw
    · obtain rfl : node = other := Option.some.inj (hd.symm.trans hd')
      simp [hu]
    · have hu' := hclosed w hw other hd' hu
      simp only [List.mem_append, List.mem_cons] at hu' ⊢
      tauto

/-! ### What is needed and who stays -/

theorem mem_needed_of_output (hv : v ∈ g.outputs) : v ∈ needed g :=
  (subset_discover g [] _).2 (List.mem_append_right _ hv)

theorem mem_needed_of_root (hn : node ∈ g.nodes) (hroot : node.kind.hasSideEffects = true)
    (hv : v ∈ node.inputs) : v ∈ needed g := by
  refine (subset_discover g [] _).2 (List.mem_append_left _ (List.mem_flatMap.mpr ⟨node, ?_, hv⟩))
  exact List.mem_filter.mpr ⟨hn, hroot⟩

/-- In a graph in single assignment form the definer of a value is the node that defines it. -/
theorem definer?_eq (hg : g.SingleAssignment) (hn : node ∈ g.nodes) (hv : v ∈ node.outputs) :
    definer? g v = some node := by
  cases hd : definer? g v with
  | none =>
    have hnot := List.find?_eq_none.mp hd node (List.mem_reverse.mpr hn)
    exact absurd (by simpa using hv) hnot
  | some other =>
    obtain ⟨hmem, hout⟩ := mem_outputs_of_definer hd
    rw [hg.nodes.eq_of_output hmem hn hout hv]

/-- What the definer of a needed value reads is needed. -/
theorem mem_needed_of_definer (hg : g.SingleAssignment) (hn : node ∈ g.nodes)
    (hneeded : v ∈ needed g) (hv : v ∈ node.outputs) : node.inputs ⊆ needed g := by
  refine discover_closed ?_ v hneeded node (definer?_eq hg hn hv)
  intro w hw
  cases hw

/-- A node stays if and only if it has side effects or defines a needed value. -/
theorem mem_kept_iff (hg : g.SingleAssignment) (hn : node ∈ g.nodes) :
    node.id ∈ kept g ↔ node.kind.hasSideEffects = true ∨ ∃ v ∈ node.outputs, v ∈ needed g := by
  unfold kept
  rw [List.mem_append, List.mem_map, List.mem_filterMap]
  constructor
  · rintro (⟨root, hroot, hid⟩ | ⟨v, hv, hid⟩)
    · obtain ⟨hmem, heffects⟩ := List.mem_filter.mp hroot
      rw [← hg.nodes.eq_of_id hmem hn hid]
      exact .inl heffects
    · obtain ⟨definer, hd, hid⟩ := Option.map_eq_some_iff.mp hid
      obtain ⟨hmem, hout⟩ := mem_outputs_of_definer hd
      rw [← hg.nodes.eq_of_id hmem hn hid]
      exact .inr ⟨v, hout, hv⟩
  · rintro (heffects | ⟨v, hv, hneeded⟩)
    · exact .inl ⟨node, List.mem_filter.mpr ⟨hn, heffects⟩, rfl⟩
    · exact .inr ⟨v, hneeded, by rw [definer?_eq hg hn hv]; rfl⟩

/-- What a node that stays reads is needed. -/
theorem inputs_subset_needed (hg : g.SingleAssignment) (hn : node ∈ g.nodes)
    (hkept : node.id ∈ kept g) : node.inputs ⊆ needed g := by
  rcases (mem_kept_iff hg hn).mp hkept with heffects | ⟨v, hv, hneeded⟩
  · exact fun w hw => mem_needed_of_root hn heffects hw
  · exact mem_needed_of_definer hg hn hneeded hv

/-- Whoever defines a needed value stays. -/
theorem contains_kept (hg : g.SingleAssignment) (hn : node ∈ g.nodes) (hneeded : v ∈ needed g)
    (hv : v ∈ node.outputs) : (kept g).contains node.id = true :=
  List.contains_iff_mem.mpr ((mem_kept_iff hg hn).mpr (.inr ⟨v, hv, hneeded⟩))

/-- Whoever defines what a node that stays reads stays. -/
theorem contains_kept_of_reads (hg : g.SingleAssignment) :
    ∀ node ∈ g.nodes, (kept g).contains node.id = true → ∀ v ∈ node.inputs, ∀ definer ∈ g.nodes,
      v ∈ definer.outputs → (kept g).contains definer.id = true := by
  intro node hn hkept v hv definer hd hout
  exact contains_kept hg hd (inputs_subset_needed hg hn (List.contains_iff_mem.mp hkept) hv) hout

/-- Whoever defines a graph output stays. -/
theorem contains_kept_of_output (hg : g.SingleAssignment) :
    ∀ v ∈ g.outputs, ∀ definer ∈ g.nodes, v ∈ definer.outputs →
      (kept g).contains definer.id = true :=
  fun _ hv _ hd hout => contains_kept hg hd (mem_needed_of_output hv) hout

/-- Dropping the other nodes keeps a graph well-formed. -/
theorem preserves_run (h : g.WellFormed) : g.Preserves (run g).1 where
  wellFormed := h.filter (contains_kept_of_reads h.form) (contains_kept_of_output h.form)
  inputs := rfl
  outputs := rfl
  later := Nat.le_refl _
  origin node hn _ := ⟨node, List.mem_of_mem_filter hn, rfl, rfl⟩
  spends := Nat.add_le_add_left (Node.totalDemand_le_of_sublist List.filter_sublist) g.nextNode

end HybridGraph.DeadCode
