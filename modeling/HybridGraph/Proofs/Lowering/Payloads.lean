import HybridGraph.Proofs.Graph.Numbered
import HybridGraph.Proofs.Lowering.Ends
import HybridGraph.Proofs.Lowering.Pipeline
/-!
# Lowering leaves tensors where they are

In a graph that was read, tensors are the payloads of the constants whose result is a tensor
(`Graph.HoldsPayloads`).  Folding moves scalar constants only, defaults and the attributes that
expansions write are numbers and words, and constants are neither folded into nor completed; so
lowering keeps it that way:

    g.Ready → g.HoldsPayloads → (Step.runAll options steps g).1.HoldsPayloads
                                                                          (holdsPayloads_runAll)
-/

namespace HybridGraph

/-! ## Attributes without tensors -/

namespace Source

variable {g g' : Graph} {node node' : Node} {attrs : AttrList}

theorem Plain.insert (h : Plain attrs) {name : String} {value : Attr}
    (hvalue : ∀ t, value ≠ .tensor t) : Plain (attrs.insert name value) := by
  intro other t hget
  rw [AttrList.get?, AttrList.insert, lookup_insertEntry] at hget
  split at hget
  · exact hvalue t (Option.some.inj hget)
  · exact h other t hget

theorem Plain.foldl {step : AttrList → String × Attr → AttrList}
    (hstep : ∀ attrs entry, step attrs entry = attrs ∨
      step attrs entry = attrs.insert entry.1 entry.2) {entries : List (String × Attr)}
    (hentries : ∀ entry ∈ entries, ∀ t, entry.2 ≠ .tensor t) (h : Plain attrs) :
    Plain (entries.foldl step attrs) := by
  refine List.foldlRecOn (motive := Plain) entries step h fun attrs h entry hentry => ?_
  rcases hstep attrs entry with heq | heq
  · rwa [heq]
  · rw [heq]
    exact h.insert (hentries entry hentry)

/-- Only constants hold payloads. -/
theorem Payloads.of_plain (hkind : node.kind ≠ .constant) (h : Plain node.attrs) :
    Payloads g node :=
  ⟨fun _ => h, fun heq => absurd heq hkind, fun heq => absurd heq hkind⟩

/-- A node that differs in its id, its operands and its scope. -/
theorem Payloads.of_same (h : Payloads g node) (hkind : node'.kind = node.kind)
    (hattrs : node'.attrs = node.attrs) (houtputs : node'.outputs = node.outputs)
    (htypes : ∀ v ∈ node.outputs, g'.typeOf v = g.typeOf v) : Payloads g' node' := by
  refine Payloads.congr (g := g) ⟨?_, ?_, ?_⟩ (houtputs ▸ htypes)
  · rw [hkind, hattrs]
    exact h.plain
  · rw [hkind, hattrs, houtputs]
    exact h.tensor
  · rw [hkind, hattrs, houtputs]
    exact h.constant

end Source

/-! ## What nodes hold -/

/-- Tensors are the payloads of the constants whose result is a tensor. -/
def Graph.HoldsPayloads (g : Graph) : Prop := ∀ node ∈ g.nodes, Source.Payloads g node

open HybridGraph.Graph Source

variable {g g' : Graph}

/-- A scalar constant is no tensor. -/
theorem Graph.HoldsPayloads.ne_tensor (h : g.HoldsPayloads) (hg : g.WellFormed) {v : ValueId}
    {a : Attr} (ha : g.scalarConstant? v = some a) (t : Tensor) : a ≠ .tensor t := by
  rintro rfl
  obtain ⟨node, hn, hv, hkind, hscalar, ha⟩ := exists_of_scalarConstant? ha
  obtain ⟨out, hout⟩ := hg.exists_output hn (by rw [hkind]; rfl)
  obtain rfl : v = out := by simpa [hout] using hv
  have htype := ((h node hn).tensor hkind v hout _ t ha).2
  obtain ⟨info, hinfo⟩ : ∃ info, g.value? v = some info :=
    ⟨_, Array.getElem?_eq_getElem (hg.form.index_lt (mem_definedBy.mpr (.inr ⟨node, hn, hv⟩)))⟩
  rw [typeOf, type?, hinfo] at htype
  rw [isTensor, tensorType?, type?, hinfo, Option.map_some, Option.bind_some] at hscalar
  rw [show info.type = _ from htype] at hscalar
  cases hscalar

/-- Node lists in which nodes lose operands, ids and places at most. -/
theorem Graph.HoldsPayloads.of_same (h : g.HoldsPayloads) (htypes : ∀ v, g'.typeOf v = g.typeOf v)
    (hnodes : ∀ node' ∈ g'.nodes, ∃ node ∈ g.nodes, node'.kind = node.kind ∧
      node'.attrs = node.attrs ∧ node'.outputs = node.outputs) : g'.HoldsPayloads := by
  intro node' hn'
  obtain ⟨node, hn, hkind, hattrs, houtputs⟩ := hnodes node' hn'
  exact (h node hn).of_same hkind hattrs houtputs fun v _ => htypes v

namespace Folding

theorem asAttribute_ne_tensor {name : String} {a : Attr} (h : ∀ t, a ≠ .tensor t) (t : Tensor) :
    asAttribute name a ≠ .tensor t := by
  unfold asAttribute
  split
  · split
    · split
      · nofun
      · exact h t
    · exact h t
  · exact h t

theorem plain_foldAttributes (h : g.HoldsPayloads) (hg : g.WellFormed) {node folded : Node}
    (hplain : Plain node.attrs) (hfold : foldAttributes? g node = some folded) :
    Plain folded.attrs := by
  obtain ⟨count, entries, -, -, -, hentries, rfl⟩ := foldAttributes?_eq_some.mp hfold
  refine .foldl (fun attrs entry => ?_) (fun entry hentry => ?_) hplain
  · unfold addFolded
    split
    · exact .inl rfl
    · exact .inr rfl
  · obtain ⟨⟨name, v⟩, -, hentry⟩ := Outcome.exists_of_mem_mapM hentries hentry
    obtain ⟨a, ha, rfl⟩ := Option.map_eq_some_iff.mp hentry
    exact asAttribute_ne_tensor (h.ne_tensor hg ha)

theorem plain_foldOther {node folded : Node} (hplain : Plain node.attrs)
    (hfold : foldOther? g node = some folded) : Plain folded.attrs := by
  obtain ⟨x, y, other, -, -, -, rfl⟩ := foldOther?_eq_some.mp hfold
  exact hplain.insert nofun

theorem kind_ne_constant_of_tensorOperands {kind : OpKind} {count : Nat}
    (h : kind.tensorOperands? = some count) : kind ≠ .constant := by
  rintro rfl
  cases h

theorem kind_ne_constant_of_takesScalar {kind : OpKind} (h : kind.takesScalar = true) :
    kind ≠ .constant := by
  rintro rfl
  cases h

theorem holdsPayloads_applyFold {fold? : Graph → Node → Option Node} {state : Graph × Nat}
    (hfold : ∀ node folded, Payloads state.1 node → fold? state.1 node = some folded →
      folded.kind ≠ .constant ∧ Plain folded.attrs) (id : NodeId)
    (h : state.1.HoldsPayloads) : (applyFold fold? id state).1.HoldsPayloads := by
  unfold applyFold
  cases hnode : (state.1.node? id).bind (fold? state.1) with
  | none => exact h
  | some folded =>
    obtain ⟨node, hfind, hfolded⟩ := Option.bind_eq_some_iff.mp hnode
    obtain ⟨hkind, hplain⟩ := hfold node folded (h node (mem_of_node? hfind).1) hfolded
    intro n hn
    rcases mem_updateFirst hn with hn | ⟨-, -, rfl⟩
    · exact (h n hn).of_same rfl rfl rfl fun _ _ => rfl
    · exact .of_plain hkind hplain

theorem holdsPayloads_visit {state : Graph × Nat} (hg : state.1.WellFormed)
    (h : state.1.HoldsPayloads) (id : NodeId) : (visit state id).1.HoldsPayloads := by
  refine holdsPayloads_applyFold (fun node folded hpayloads hfold => ?_) id
    (holdsPayloads_applyFold (fun node folded hpayloads hfold => ?_) id h)
  · obtain ⟨x, y, other, hscalar, -, -, heq⟩ := foldOther?_eq_some.mp hfold
    have hkind := kind_ne_constant_of_takesScalar hscalar
    exact ⟨heq ▸ hkind, plain_foldOther (hpayloads.plain hkind) hfold⟩
  · obtain ⟨count, entries, hcount, -, -, -, heq⟩ := foldAttributes?_eq_some.mp hfold
    have hkind := kind_ne_constant_of_tensorOperands hcount
    exact ⟨heq ▸ hkind, plain_foldAttributes h hg (hpayloads.plain hkind) hfold⟩

theorem holdsPayloads_foldl_visit (ids : List NodeId) {state : Graph × Nat}
    (hg : state.1.WellFormed) (h : state.1.HoldsPayloads) :
    (ids.foldl visit state).1.HoldsPayloads := by
  induction ids generalizing state with
  | nil => exact h
  | cons id ids ih => exact ih (preserves_visit hg id).wellFormed (holdsPayloads_visit hg h id)

end Folding

namespace Defaults

theorem ofKind_ne_tensor {kind : OpKind} : ∀ entry ∈ ofKind kind, ∀ t, entry.2 ≠ .tensor t := by
  cases kind <;> simp [ofKind]

theorem plain_addDefault {node : Node} {entry : String × Attr} (h : Plain node.attrs)
    (hentry : ∀ t, entry.2 ≠ .tensor t) : Plain (addDefault node entry).attrs := by
  unfold addDefault
  split
  · exact h
  · exact h.insert hentry

theorem plain_wrapAxis (rank : Nat) {node : Node} (name : String) (h : Plain node.attrs) :
    Plain (wrapAxis rank node name).attrs := by
  unfold wrapAxis
  split
  · split
    · exact h.insert nofun
    · exact h
  · exact h

theorem plain_normalize (g : Graph) {node : Node} (h : Plain node.attrs) :
    Plain (normalize g node).attrs := by
  have hfilled : Plain ((ofKind node.kind).foldl addDefault node).attrs :=
    List.foldlRecOn (motive := fun node : Node => Plain node.attrs) _ _ h
      fun _ h entry hentry => plain_addDefault h (ofKind_ne_tensor entry hentry)
  unfold normalize
  split
  · dsimp only
    split
    · next rank _ =>
      exact List.foldlRecOn (motive := fun node : Node => Plain node.attrs) _ _ hfilled
        fun _ h name _ => plain_wrapAxis rank name h
    · exact hfilled
  · exact h

theorem normalize_constant (g : Graph) {node : Node} (h : node.kind = .constant) :
    normalize g node = node := by
  unfold normalize
  rw [h]
  split
  · dsimp only
    split <;> rfl
  · rfl

theorem holdsPayloads_run (h : g.HoldsPayloads) : (run g).1.HoldsPayloads := by
  intro node' hn'
  obtain ⟨node, hn, rfl⟩ := List.mem_map.mp hn'
  by_cases hkind : node.kind = .constant
  · rw [normalize_constant g hkind]
    exact (h node hn).of_same rfl rfl rfl fun _ _ => rfl
  · obtain ⟨attrs, hattrs⟩ := normalize_eq g node
    refine .of_plain ?_ (plain_normalize g ((h node hn).plain hkind))
    rw [hattrs]
    exact hkind

end Defaults

theorem Identities.holdsPayloads_visit {state : Graph × Nat} (h : state.1.HoldsPayloads)
    (id : NodeId) : (visit state id).1.HoldsPayloads := by
  unfold visit
  split
  · exact h
  · split
    · refine h.of_same (fun _ => rfl) fun node' hn' => ?_
      obtain ⟨node, hn, rfl⟩ := List.mem_map.mp (List.mem_of_mem_filter hn')
      exact ⟨node, hn, rfl, rfl, rfl⟩
    · exact h

namespace Decomposition

variable {node : Node}

theorem IsPart.plain {n : Node} (h : IsPart g node n) : Plain n.attrs := by
  intro name t hget
  obtain ⟨before, after, hsplit, -⟩ := List.lookup_eq_some_iff.mp hget
  have hentry : (name, Attr.tensor t) ∈ n.attrs.entries := by simp [hsplit]
  cases h.written _ hentry

/-- Expansions write numbers. -/
theorem Expands.holdsPayloads (h : Expands g node g') (hg : g.WellFormed)
    (hpayloads : g.HoldsPayloads) : g'.HoldsPayloads := by
  obtain ⟨added, last, -, -, hreplaces, -, -, hparts⟩ := h
  obtain ⟨before, after, out, hsplit, -, hnodes⟩ := hreplaces.nodes
  have hkept : ∀ n ∈ g.nodes, ∀ n' : Node, n'.kind = n.kind → n'.attrs = n.attrs →
      n'.outputs = n.outputs → Payloads g' n' := fun n hn n' hkind hattrs houtputs =>
    (hpayloads n hn).of_same hkind hattrs houtputs fun v hv =>
      hreplaces.grows.typeOf (hg.form.index_lt (mem_definedBy.mpr (.inr ⟨n, hn, hv⟩)))
  intro n hn
  rw [hnodes, List.mem_append, List.mem_append, List.mem_map] at hn
  rcases hn with (hn | hn) | ⟨m, hm, rfl⟩
  · exact hkept n (hsplit ▸ List.mem_append_left _ hn) n rfl rfl rfl
  · exact .of_plain (hparts n hn).kind_ne_constant (hparts n hn).plain
  · exact hkept m (hsplit ▸ List.mem_append_right _ (List.mem_cons_of_mem _ hm)) _ rfl rfl rfl

theorem Decomposes.holdsPayloads_visitKind {kind : OpKind} {visit : Graph → Node → Verdict}
    (hd : Decomposes kind visit) (pass : String) (hg : g.Ready) (h : g.HoldsPayloads) :
    (visitKind pass kind visit g).1.HoldsPayloads :=
  hd.visitKind_induction pass (p := Graph.HoldsPayloads)
    (fun hg h _ _ _ hexpands => hexpands.holdsPayloads hg.toWellFormed h) hg h

end Decomposition

/-! ## Passes -/

/-- Tensors stay where they are. -/
theorem Pass.holdsPayloads_run (options : LoweringOptions) (pass : Pass) (hg : g.Ready)
    (h : g.HoldsPayloads) : (pass.run options g).1.HoldsPayloads := by
  cases pass with
  | verify => exact h
  | fold => exact @Folding.holdsPayloads_foldl_visit g.nodeIds (g, 0) hg.toWellFormed h
  | normalize => exact Defaults.holdsPayloads_run h
  | identities =>
    exact List.foldlRecOn (motive := fun state : Graph × Nat => state.1.HoldsPayloads)
      (Identities.found g) Identities.visit (b := (g, 0)) h fun _ h id _ =>
        Identities.holdsPayloads_visit h id
  | linear => exact Decomposition.Decomposes.linear.holdsPayloads_visitKind _ hg h
  | silu => exact Decomposition.Decomposes.silu.holdsPayloads_visitKind _ hg h
  | gelu => exact (Decomposition.Decomposes.gelu options).holdsPayloads_visitKind _ hg h
  | deadCode =>
    exact h.of_same (fun _ => rfl) fun node hn =>
      ⟨node, List.mem_of_mem_filter hn, rfl, rfl, rfl⟩

/-- So they do under every pipeline. -/
theorem Step.holdsPayloads_runAll (options : LoweringOptions) (steps : List Step)
    (hg : g.Ready) (h : g.HoldsPayloads) : (runAll options steps g).1.HoldsPayloads := by
  have hlowers := lowersTo_runAll options steps g
  generalize (runAll options steps g).1 = g' at hlowers ⊢
  have hboth : g'.Ready ∧ g'.HoldsPayloads := by
    induction hlowers with
    | refl => exact ⟨hg, h⟩
    | tail _ hpass ih =>
      obtain ⟨pass, rfl⟩ := hpass
      obtain ⟨hg', h'⟩ := ih
      exact ⟨(pass.preserves_run options hg').1.ready hg', pass.holdsPayloads_run options hg' h'⟩
  exact hboth.2

end HybridGraph
