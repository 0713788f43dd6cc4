import HybridGraph.Proofs.Lowering.Decomposition
import HybridGraph.Proofs.Lowering.Liveness
/-!
# What passes leave finished

A node is simple if there is nothing of it to fold, to complete or to retire (`Node.Simple`), and a
kind is finished if no node of it is composite (`Graph.Unfinished`).  Whether a node is simple or
composite depends on its operands only through their types and through which of them are constants,
so renaming operands keeps both (`Node.Resembles`).  The parts into which a node is decomposed are
simple and not composite; so decompositions and the removal of dead nodes leave nothing more to do,
and a sweep that ends well finishes its kind:

    Decomposes kind visit → g.WellFormed → visitKind pass kind visit g = (g', .ok stats) →
      g.Advances g' ∧ ∀ id, ¬ g'.Unfinished kind id                          (finished_visitKind)
    g.SingleAssignment → g.Advances (DeadCode.run g).1                               (advances_run)
-/

namespace HybridGraph

open HybridGraph.Graph

/-! ## Simple nodes -/

/-- Nothing of the node is left to fold, to write out or to retire. -/
structure Node.Simple (g : Graph) (node : Node) : Prop where
  attributes : Folding.foldAttributes? g node = none
  other : Folding.foldOther? g node = none
  complete : Defaults.isIncomplete g node = false
  active : Identities.isIdentity g node = false

/-- All nodes are simple. -/
def Graph.Simplified (g : Graph) : Prop := ∀ node ∈ g.nodes, node.Simple g

/-- A value has the type of another one in another graph, and is no constant that the other one is
not. -/
structure Graph.ReadsAs (g g' : Graph) (v v' : ValueId) : Prop where
  type : g'.type? v' = g.type? v
  constant : ∀ a, g'.scalarConstant? v' = some a → g.scalarConstant? v = some a

/-- A node is another one of another graph, up to operands that read as those of the other. -/
def Node.Resembles (g g' : Graph) (node node' : Node) : Prop :=
  ∃ inputs, List.Forall₂ (g.ReadsAs g') node.inputs inputs ∧ { node with inputs } = node'

namespace Graph.ReadsAs

variable {g g' : Graph} {v v' : ValueId}

theorem tensorType? (h : g.ReadsAs g' v v') : g'.tensorType? v' = g.tensorType? v :=
  congrArg (Option.bind · ValueType.tensor?) h.type

theorem isTensor (h : g.ReadsAs g' v v') : g'.isTensor v' = g.isTensor v :=
  congrArg Option.isSome h.tensorType?

theorem dtype? (h : g.ReadsAs g' v v') : g'.dtype? v' = g.dtype? v :=
  congrArg (Option.bind · TensorType.dtype) h.tensorType?

end Graph.ReadsAs

theorem forall₂_zip {α β γ : Type} {r : β → γ → Prop} {bs : List β} {cs : List γ}
    (h : List.Forall₂ r bs cs) (as : List α) :
    List.Forall₂ (fun p q => p.1 = q.1 ∧ r p.2 q.2) (as.zip bs) (as.zip cs) := by
  induction as generalizing bs cs with
  | nil => exact .nil
  | cons a as ih =>
    cases h with
    | nil => exact .nil
    | cons hfirst hrest => exact .cons ⟨rfl, hfirst⟩ (ih hrest)

namespace Node.Resembles

variable {g g' : Graph} {node node' : Node}

theorem foldAttributes? (h : node.Resembles g g' node')
    (hnone : Folding.foldAttributes? g node = none) :
    Folding.foldAttributes? g' node' = none := by
  obtain ⟨inputs, hreads, rfl⟩ := h
  by_contra hsome
  obtain ⟨folded, hfolded⟩ := Option.ne_none_iff_exists'.mp hsome
  obtain ⟨count, entries, hcount, hlt, hle, hentries, -⟩ :=
    Folding.foldAttributes?_eq_some.mp hfolded
  dsimp only at hcount hlt hle
  rw [← hreads.length_eq] at hlt hle
  have htrailing : Folding.trailing? g node count = some entries := by
    have hpairs := forall₂_zip (List.forall₂_drop count hreads) node.kind.attributeNames
    refine Outcome.mapM_eq_some.mpr (Outcome.forall₂_of_forall₂ hpairs.flip
      (Outcome.mapM_eq_some.mp hentries) ?_)
    rintro ⟨name, v'⟩ - ⟨_, v⟩ entry ⟨rfl, hv⟩ hentry
    obtain ⟨a, ha, rfl⟩ := Option.map_eq_some_iff.mp hentry
    exact congrArg (Option.map _) (hv.constant a ha)
  have := Folding.foldAttributes?_eq_some.mpr ⟨count, entries, hcount, hlt, hle, htrailing, rfl⟩
  rw [hnone] at this
  cases this

theorem foldOther? (h : node.Resembles g g' node') (hnone : Folding.foldOther? g node = none) :
    Folding.foldOther? g' node' = none := by
  obtain ⟨inputs, hreads, rfl⟩ := h
  by_contra hsome
  obtain ⟨folded, hfolded⟩ := Option.ne_none_iff_exists'.mp hsome
  obtain ⟨x', y', other, hscalar, hinputs', hother, -⟩ := Folding.foldOther?_eq_some.mp hfolded
  dsimp only at hscalar hinputs'
  subst hinputs'
  obtain ⟨a, ha, hfloat⟩ := Option.bind_eq_some_iff.mp hother
  obtain ⟨x, rest, -, hrest, hinputs⟩ := List.forall₂_cons_right_iff.mp hreads
  obtain ⟨y, _, hy, hnil, rfl⟩ := List.forall₂_cons_right_iff.mp hrest
  obtain rfl := List.forall₂_nil_right_iff.mp hnil
  have := Folding.foldOther?_eq_some.mpr ⟨x, y, other, hscalar, hinputs,
    Option.bind_eq_some_iff.mpr ⟨a, hy.constant a ha, hfloat⟩, rfl⟩
  rw [hnone] at this
  cases this

theorem isIncomplete_eq (h : node.Resembles g g' node') :
    Defaults.isIncomplete g' node' = Defaults.isIncomplete g node := by
  obtain ⟨inputs, hreads, rfl⟩ := h
  have hhead : inputs.head?.bind g'.tensorType? = node.inputs.head?.bind g.tensorType? := by
    generalize node.inputs = inputs₀ at hreads ⊢
    cases hreads with
    | nil => rfl
    | cons hfirst _ => exact hfirst.tensorType?
  unfold Defaults.isIncomplete Defaults.isFolded Defaults.operandRank?
  dsimp only
  rw [hhead, hreads.length_eq]
  rfl

theorem isIdentity_eq (h : node.Resembles g g' node') :
    Identities.isIdentity g' node' = Identities.isIdentity g node := by
  obtain ⟨inputs, hreads, rfl⟩ := h
  obtain ⟨id, kind, inputs₀, outputs, attrs, scope⟩ := node
  cases hreads with
  | nil => rfl
  | cons hfirst hrest =>
    cases hrest with
    | nil =>
      match outputs with
      | [] | _ :: _ :: _ => rfl
      | [out] =>
        unfold Identities.isIdentity
        dsimp only
        rw [hfirst.dtype?]
        rfl
    | cons _ _ => rfl

/-- What resembles a simple node is simple. -/
theorem simple (h : node.Resembles g g' node') (hsimple : node.Simple g) : node'.Simple g' where
  attributes := h.foldAttributes? hsimple.attributes
  other := h.foldOther? hsimple.other
  complete := h.isIncomplete_eq.trans hsimple.complete
  active := h.isIdentity_eq.trans hsimple.active

end Node.Resembles

/-! ## Composite nodes -/

open Decomposition

theorem Node.Resembles.isComposite_iff {g g' : Graph} {node node' : Node}
    (h : node.Resembles g g' node') : IsComposite g' node' ↔ IsComposite g node := by
  obtain ⟨inputs, hreads, rfl⟩ := h
  obtain ⟨id, kind, inputs₀, outputs, attrs, scope⟩ := node
  dsimp only at hreads
  have htensors : (∀ v ∈ inputs, g'.isTensor v = true) ↔ ∀ v ∈ inputs₀, g.isTensor v = true := by
    induction hreads with
    | nil => exact iff_of_true (List.forall_mem_nil _) (List.forall_mem_nil _)
    | cons hfirst _ ih =>
      rw [List.forall_mem_cons, List.forall_mem_cons, hfirst.isTensor]
      exact and_congr_right fun _ => ih
  cases kind with
  | linear => exact htensors
  | gelu => exact and_congr_left fun _ => by rw [hreads.length_eq]
  | _ => exact Iff.rfl

/-- A composite node of the kind has the id. -/
def Graph.Unfinished (g : Graph) (kind : OpKind) (id : NodeId) : Prop :=
  ∃ node ∈ g.nodes, node.id = id ∧ node.kind = kind ∧ IsComposite g node

/-- Composite nodes that resemble others were composite before. -/
theorem Node.Resembles.unfinished {g g' : Graph} {node node' : Node}
    (h : node.Resembles g g' node') (hn : node ∈ g.nodes) (hcomposite : IsComposite g' node') :
    g.Unfinished node'.kind node'.id := by
  have hbefore := h.isComposite_iff.mp hcomposite
  obtain ⟨inputs, -, rfl⟩ := h
  exact ⟨node, hn, rfl, rfl, hbefore⟩

/-- A simplified graph stays simplified, and there are no new composite nodes. -/
structure Graph.Advances (g g' : Graph) : Prop where
  simplified : g.Simplified → g'.Simplified
  composite : ∀ kind id, g'.Unfinished kind id → g.Unfinished kind id

namespace Graph.Advances

variable {g g' g'' : Graph}

theorem refl (g : Graph) : g.Advances g := ⟨id, fun _ _ => id⟩

theorem trans (h : g.Advances g') (h' : g'.Advances g'') : g.Advances g'' :=
  ⟨h'.simplified ∘ h.simplified, fun kind id hid => h.composite kind id (h'.composite kind id hid)⟩

end Graph.Advances

/-! ## Dead code -/

/-- Removing dead nodes leaves nothing more to do. -/
theorem DeadCode.advances_run {g : Graph} (hg : g.SingleAssignment) : g.Advances (run g).1 := by
  have hreads : ∀ v, g.ReadsAs (run g).1 v v := by
    refine fun v => ⟨rfl, fun a ha => ?_⟩
    obtain ⟨node, hn, hrest⟩ := (scalarConstant?_eq_some (singleAssignment_run hg)).mp ha
    exact (scalarConstant?_eq_some hg).mpr ⟨node, (mem_nodes_run.mp hn).1, hrest⟩
  have hresembles : ∀ node : Node, node.Resembles g (run g).1 node := fun node =>
    ⟨node.inputs, List.forall₂_same.mpr fun v _ => hreads v, rfl⟩
  refine ⟨fun h node hn => (hresembles node).simple (h node (mem_nodes_run.mp hn).1), ?_⟩
  rintro _ _ ⟨node, hn, rfl, rfl, hcomposite⟩
  exact (hresembles node).unfinished (mem_nodes_run.mp hn).1 hcomposite

/-! ## Parts -/

theorem Graph.index_lt_of_mem_inputs {g : Graph} (hg : g.SingleAssignment) {node : Node}
    (hn : node ∈ g.nodes) {v : ValueId} (hv : v ∈ node.inputs) : v.index < g.values.size := by
  obtain ⟨before, after, hsplit⟩ := List.append_of_mem hn
  refine hg.index_lt ?_
  rw [hsplit]
  exact definedBy_subset_append _ _ _ ((hg.nodes before node after hsplit).reads v hv)

namespace Decomposition

open Expansion

variable {g g' : Graph} {node : Node} {added : List Node} {last : Nat} {out v : ValueId}

/-- A scalar constant behind an expansion was one before it, under the same name. -/
theorem Replaces.scalarConstant (h : Replaces g node added last g') (hg : g.SingleAssignment)
    (hparts : ∀ n ∈ added, IsPart g node n) {a : Attr} (hv : g'.scalarConstant? v = some a) :
    v.index < g.values.size ∧ g.scalarConstant? v = some a := by
  obtain ⟨n, hn, hout, hkind, htensor, hvalue⟩ := exists_of_scalarConstant? hv
  obtain ⟨before, after, out, hsplit, -, hnodes⟩ := h.nodes
  have hold : ∀ m ∈ g.nodes, v ∈ m.outputs → m.kind = .constant → m.attr? "value" = some a →
      v.index < g.values.size ∧ g.scalarConstant? v = some a := by
    intro m hm hmout hmkind hmvalue
    have hlt := hg.index_lt (mem_definedBy.mpr (.inr ⟨m, hm, hmout⟩))
    refine ⟨hlt, (scalarConstant?_eq_some hg).mpr ⟨m, hm, hmout, hmkind, ?_, hmvalue⟩⟩
    rw [← h.grows.isTensor hlt]
    exact htensor
  rw [hnodes, List.mem_append, List.mem_append, List.mem_map] at hn
  rw [hsplit] at hold
  rcases hn with (hn | hn) | ⟨m, hm, rfl⟩
  · exact hold n (List.mem_append_left _ hn) hout hkind hvalue
  · exact absurd hkind (hparts n hn).kind_ne_constant
  · exact hold m (List.mem_append_right _ (List.mem_cons_of_mem _ hm)) hout hkind hvalue

/-- The new name of a value reads as its old one. -/
theorem Replaces.readsAs (h : Replaces g node added last g') (hg : g.SingleAssignment)
    (hparts : ∀ n ∈ added, IsPart g node n) (hretypes : Retypes g out g')
    (hv : v.index < g.values.size) : g.ReadsAs g' v (if v = out then madeValue g last else v) := by
  split
  · next heq =>
    subst heq
    refine ⟨?_, fun a ha => ?_⟩
    · obtain ⟨values, hvalues⟩ := hretypes
      obtain ⟨_, _, _, _, -, -, -, hcount, -⟩ := id h
      have hsize := h.size
      rw [hvalues, Array.size_push, hcount] at hsize
      have hnew : (madeValue g last).index = values.size := by
        show g.values.size + last = values.size
        omega
      unfold Graph.typeOf type? value? at *
      rw [hvalues, hnew, Array.getElem?_push_size, Array.getElem?_eq_getElem hv]
      rfl
    · exact absurd (h.scalarConstant hg hparts ha).1 (Nat.not_lt.mpr (Nat.le_add_right _ last))
  · refine ⟨?_, fun a ha => (h.scalarConstant hg hparts ha).2⟩
    unfold type? value?
    rw [h.grows _ hv]

/-- Behind an expansion stand the added nodes and nodes that resemble the others. -/
theorem Replaces.resembles (h : Replaces g node added last g') (hg : g.SingleAssignment)
    (hparts : ∀ n ∈ added, IsPart g node n) (hout : node.outputs = [out])
    (hretypes : Retypes g out g') {n' : Node} (hn' : n' ∈ g'.nodes) :
    n' ∈ added ∨ ∃ n ∈ g.nodes, n.id ≠ node.id ∧ n.Resembles g g' n' := by
  obtain ⟨before, after, other, hsplit, hother, hnodes⟩ := h.nodes
  obtain rfl : out = other := (List.cons.inj (hout.symm.trans hother)).1
  have hids := hg.nodes.nodup
  rw [hsplit, List.map_append, List.map_cons, List.nodup_append, List.nodup_cons] at hids
  obtain ⟨-, ⟨hafter, -⟩, hbefore⟩ := hids
  have hresembles : ∀ n ∈ g.nodes, n.Resembles g g' (n.replaceInput out (madeValue g last)) := by
    intro n hn
    refine ⟨_, List.forall₂_map_right_iff.mpr (List.forall₂_same.mpr fun v hv => ?_), rfl⟩
    exact h.readsAs hg hparts hretypes (index_lt_of_mem_inputs hg hn hv)
  rw [hsplit] at hresembles
  rw [hnodes, List.mem_append, List.mem_append, List.mem_map] at hn'
  rw [hsplit]
  rcases hn' with (hn' | hn') | ⟨m, hm, rfl⟩
  · have hmem := List.mem_append_left (node :: after) hn'
    have hunread := notMem_inputs_of_before (hsplit ▸ hg.nodes) (hout ▸ List.mem_cons_self) n' hn'
    have hsame := hresembles n' hmem
    rw [Node.replaceInput_eq_self hunread] at hsame
    exact .inr ⟨n', hmem, hbefore _ (List.mem_map_of_mem hn') _ List.mem_cons_self, hsame⟩
  · exact .inl hn'
  · have hmem := List.mem_append_right before (List.mem_cons_of_mem node hm)
    exact .inr ⟨m, hmem, fun he => hafter (he ▸ List.mem_map_of_mem hm), hresembles m hmem⟩

/-- Parts are simple where their second operand is no constant. -/
theorem IsPart.simple {n : Node} (h : IsPart g node n)
    (hsecond : ∀ y, n.inputs[1]? = some y → g'.scalarConstant? y = none) : n.Simple g' where
  attributes := by
    by_contra hsome
    obtain ⟨folded, hfolded⟩ := Option.ne_none_iff_exists'.mp hsome
    obtain ⟨count, _, hcount, hlt, -⟩ := Folding.foldAttributes?_eq_some.mp hfolded
    have hle := h.folded
    unfold Defaults.isFolded at hle
    rw [hcount] at hle
    exact absurd hlt (Nat.not_lt.mpr (of_decide_eq_true hle))
  other := by
    by_contra hsome
    obtain ⟨folded, hfolded⟩ := Option.ne_none_iff_exists'.mp hsome
    obtain ⟨x, y, _, -, hinputs, hother, -⟩ := Folding.foldOther?_eq_some.mp hfolded
    rw [hsecond y (by rw [hinputs]; rfl)] at hother
    cases hother
  complete := by
    have haxes : ∀ kind : OpKind, ∀ part ∈ kind.parts, Defaults.axisNames part = [] := by
      rintro (_ | _) <;> decide
    have hcomplete : (Defaults.ofKind n.kind).any (fun entry => !n.attrs.contains entry.1) =
        false := by
      rw [List.any_eq_false]
      exact fun entry hentry => by simp [h.complete entry hentry]
    unfold Defaults.isIncomplete
    rw [hcomplete, haxes _ _ h.kind]
    cases Defaults.operandRank? g' n <;> simp
  active := by
    have hactive : ∀ kind : OpKind, ∀ part ∈ kind.parts,
        ¬ (part = .dropout ∨ part = .contiguous ∨ part = .to) := by
      rintro (_ | _) <;> decide
    by_contra hidentity
    rw [Bool.not_eq_false] at hidentity
    exact hactive _ _ h.kind (Identities.isNeutral_of_isIdentity hidentity)

theorem IsPart.not_isComposite {n : Node} (h : IsPart g node n) : ¬ IsComposite g' n := by
  have hparts := OpKind.parts_of_mem_parts _ _ h.kind
  unfold IsComposite
  split
  · next hkind => rw [hkind] at hparts; cases hparts
  · next hkind => rw [hkind] at hparts; cases hparts
  · next hkind => rw [hkind] at hparts; cases hparts
  · exact not_false

/-- An expansion adds nothing that is left to do, and the node itself is done. -/
theorem Expands.advances (h : Expands g node g') (hg : g.SingleAssignment) :
    g.Advances g' ∧ ∀ kind, ¬ g'.Unfinished kind node.id := by
  obtain ⟨added, last, out, hout, hreplaces, -, hretypes, hparts⟩ := h
  have hnodes : ∀ n' ∈ g'.nodes, n' ∈ added ∨
      ∃ n ∈ g.nodes, n.id ≠ node.id ∧ n.Resembles g g' n' := fun n' hn' =>
    hreplaces.resembles hg hparts hout hretypes hn'
  -- what a part reads second was added with it or is a tensor
  have hsecond : ∀ n ∈ added, ∀ y, n.inputs[1]? = some y → g'.scalarConstant? y = none := by
    intro n hn y hy
    by_contra hsome
    obtain ⟨a, ha⟩ := Option.ne_none_iff_exists'.mp hsome
    obtain ⟨hlt, hbefore⟩ := hreplaces.scalarConstant hg hparts ha
    rcases (hparts n hn).second y hy with ⟨i, rfl⟩ | htensor
    · exact absurd hlt (Nat.not_lt.mpr (Nat.le_add_right _ i))
    · obtain ⟨_, -, -, -, hnot, -⟩ := exists_of_scalarConstant? hbefore
      rw [htensor] at hnot
      cases hnot
  refine ⟨⟨fun hsimple n' hn' => ?_, ?_⟩, ?_⟩
  · rcases hnodes n' hn' with hn' | ⟨n, hn, -, hresembles⟩
    · exact (hparts n' hn').simple (hsecond n' hn')
    · exact hresembles.simple (hsimple n hn)
  · rintro _ _ ⟨n', hn', rfl, rfl, hcomposite⟩
    rcases hnodes n' hn' with hn' | ⟨n, hn, -, hresembles⟩
    · exact absurd hcomposite (hparts n' hn').not_isComposite
    · exact hresembles.unfinished hn hcomposite
  · rintro _ ⟨n', hn', hid, -, hcomposite⟩
    rcases hnodes n' hn' with hn' | ⟨n, hn, hother, hresembles⟩
    · exact (hparts n' hn').not_isComposite hcomposite
    · obtain ⟨inputs, -, rfl⟩ := hresembles
      exact hother hid

/-! ## Sweeps -/

namespace Decomposes

variable {kind : OpKind} {visit : Graph → Node → Verdict} {pass : String} {stats : PassStats}

/-- A sweep that ends well finishes the nodes that it visits. -/
theorem finished_visitAll (hd : Decomposes kind visit) {ids : List NodeId} {count : Nat}
    (hg : g.Ready) (hids : g.OfKind (· = kind) ids)
    (hstats : (visitAll pass visit g count ids).2 = .ok stats) :
    g.Advances (visitAll pass visit g count ids).1 ∧
      ∀ id ∈ ids, ¬ (visitAll pass visit g count ids).1.Unfinished kind id := by
  induction ids generalizing g count with
  | nil => exact ⟨.refl g, List.forall_mem_nil _⟩
  | cons id ids ih =>
    have hrest : g.OfKind (· = kind) ids := fun other ho => hids other (List.mem_cons_of_mem _ ho)
    rcases hd.visitAll_cons hg pass count hids with
      ⟨hdone, heq⟩ | ⟨node, hn, rfl, -, -, ⟨g', -, hexpands, heq⟩ | ⟨fault, heq⟩⟩
    · rw [heq] at hstats ⊢
      obtain ⟨hadvances, hfinished⟩ := ih hg hrest hstats
      refine ⟨hadvances, List.forall_mem_cons.mpr ⟨fun hleft => ?_, hfinished⟩⟩
      obtain ⟨node, hn, hid, -, hcomposite⟩ := hadvances.composite kind id hleft
      exact hdone node hn hid hcomposite
    · rw [heq] at hstats ⊢
      have hpreserves := hexpands.preserves
      obtain ⟨hfirst, hdone⟩ := hexpands.advances hg.form
      obtain ⟨hadvances, hfinished⟩ :=
        ih (hpreserves.ready hg) (hrest.of_preserves hpreserves) hstats
      exact ⟨hfirst.trans hadvances, List.forall_mem_cons.mpr
        ⟨fun hleft => hdone kind (hadvances.composite kind _ hleft), hfinished⟩⟩
    · rw [heq] at hstats
      cases hstats

/-- A decomposition that ends well leaves no composite node of its kind. -/
theorem finished_visitKind (hd : Decomposes kind visit) (hg : g.Ready)
    (h : visitKind pass kind visit g = (g', .ok stats)) :
    g.Advances g' ∧ ∀ id, ¬ g'.Unfinished kind id := by
  obtain ⟨hadvances, hfinished⟩ :=
    hd.finished_visitAll hg (ofKind_filter hg.toWellFormed kind) (congrArg Prod.snd h)
  rw [show visitAll _ _ _ _ _ = (g', .ok stats) from h] at hadvances hfinished
  refine ⟨hadvances, fun id hleft => ?_⟩
  obtain ⟨node, hn, rfl, hkind, -⟩ := hadvances.composite kind id hleft
  refine hfinished node.id (List.mem_map_of_mem (List.mem_filter.mpr ⟨hn, ?_⟩)) hleft
  simpa using hkind

end Decomposes

end Decomposition

end HybridGraph
