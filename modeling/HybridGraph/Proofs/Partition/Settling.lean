import HybridGraph.Proofs.Partition.Admissible
/-!
# How demotion settles

Every step of the algorithm demotes nodes that a rule demotes, looking at what was kept when the
runs were formed (`Extends`).  A round that changes nothing leaves no rule to fire, and there are
as many rounds as that takes:

    t.Extends options d (t.round min d)                                     (extends_round)
    t.round min d = d → ∀ id ∈ t.kept d, ¬ t.graph.Demotes … (t.kept d) id  (stuck_of_round_eq)
    t.round min (t.settle min rounds d) = t.settle min rounds d             (round_settle)
-/

namespace HybridGraph

/-! ## Demoted nodes -/

namespace Demoted

variable {d : Demoted} {id : NodeId} {reason : FallbackReason}

theorem contains_iff : d.contains id = true ↔ id ∈ d.map Prod.fst := by
  unfold contains
  induction d with
  | nil => simp
  | cons entry d ih =>
    obtain ⟨other, why⟩ := entry
    rw [List.lookup_cons]
    by_cases h : id = other
    · simp [h]
    · have hne : (id == other) = false := by simpa using h
      simp [hne, h, ih]

theorem contains_add {other : NodeId} :
    (d.add id reason).contains other = true ↔ other = id ∨ d.contains other = true := by
  unfold add
  split
  · next h =>
    constructor
    · exact .inr
    · rintro (rfl | ho)
      · exact h
      · exact ho
  · simp only [contains_iff, List.map_cons, List.mem_cons]

theorem suffix_add : d <:+ d.add id reason := by
  unfold add
  split
  · exact List.suffix_rfl
  · exact List.suffix_cons _ d

/-- A node that cannot be added is there. -/
theorem contains_of_add_eq (h : d.add id reason = d) : d.contains id = true := by
  unfold add at h
  split at h
  · next hc => exact hc
  · have hlen := congrArg List.length h
    rw [List.length_cons] at hlen
    omega

end Demoted

theorem Graph.Demotes.mem_nodeIds {g : Graph} {options : PartitionOptions}
    {shapes? : Option ShapeTable} {S : Set NodeId} {id : NodeId}
    (h : g.Demotes options shapes? S id) : id ∈ g.nodeIds := by
  cases h with
  | constant hnode _ _ => exact List.mem_map_of_mem hnode
  | short hrun hnode _ => exact List.mem_map_of_mem (hrun.subset hnode)
  | input hrun hnode _ _ _ => exact List.mem_map_of_mem (hrun.subset hnode)
  | output hrun hnode _ _ _ => exact List.mem_map_of_mem (hrun.subset hnode)

namespace Terrain

/-! ## What is kept -/

/-- The index is the index of the graph. -/
structure Sound (t : Terrain) : Prop where
  form : t.graph.SingleAssignment
  describes : t.index.Describes t.graph.inputs t.graph.nodes
  outputs : t.index.outputs = t.graph.outputs

/-- The nodes that are not demoted. -/
def kept (t : Terrain) (d : Demoted) : Set NodeId :=
  {id | id ∈ t.graph.nodeIds ∧ d.contains id = false}

variable {t : Terrain} {options : PartitionOptions} {d d' : Demoted}

theorem mem_kept {node : Node} (hn : node ∈ t.graph.nodes) :
    node.id ∈ t.kept d ↔ d.contains node.id = false := by
  refine ⟨And.right, fun h => ⟨List.mem_map_of_mem hn, h⟩⟩

theorem kept_add {id : NodeId} {reason : FallbackReason} :
    t.kept (d.add id reason) = t.kept d \ {id} := by
  ext other
  show (other ∈ t.graph.nodeIds ∧ (d.add id reason).contains other = false) ↔
    (other ∈ t.graph.nodeIds ∧ d.contains other = false) ∧ other ≠ id
  rw [← Bool.not_eq_true, ← Bool.not_eq_true, Demoted.contains_add, not_or]
  constructor
  · rintro ⟨hid, hne, hnot⟩
    exact ⟨⟨hid, hnot⟩, hne⟩
  · rintro ⟨⟨hid, hnot⟩, hne⟩
    exact ⟨hid, hne, hnot⟩

/-- The runs that are left are the runs of what is kept. -/
theorem mem_runs (hs : t.Sound) {run : List Node} :
    run ∈ t.runs d ↔ IsRun (·.id ∈ t.kept d) t.graph.nodes run := by
  have hstretch : run ∈ t.runs d ↔
      .run run ∈ stretches (fun node => !d.contains node.id) t.graph.nodes := by
    rw [runs, List.mem_filterMap]
    constructor
    · rintro ⟨s, hmem, hrun⟩
      cases s with
      | run nodes =>
        obtain rfl : nodes = run := Option.some.inj hrun
        exact hmem
      | single node => cases hrun
    · intro h
      exact ⟨_, h, rfl⟩
  rw [hstretch, mem_stretches_iff hs.form.nodes.nodup.of_map]
  refine isRun_congr fun node hn => ?_
  rw [mem_kept hn, Bool.not_eq_true']

/-! ## Steps by the rules -/

variable (t options) in
/-- Nodes are added that a rule demotes, looking at a set around what is kept. -/
inductive Extends : Demoted → Demoted → Prop where
  | refl (d : Demoted) : Extends d d
  | add {d d' : Demoted} {S : Set NodeId} {id : NodeId} (reason : FallbackReason)
      (h : Extends d d') (hle : t.kept d' ⊆ S) (hrule : t.graph.Demotes options t.shapes? S id) :
      Extends d (d'.add id reason)

namespace Extends

theorem single {S : Set NodeId} {id : NodeId} (reason : FallbackReason) (hle : t.kept d ⊆ S)
    (hrule : t.graph.Demotes options t.shapes? S id) : t.Extends options d (d.add id reason) :=
  .add reason (.refl d) hle hrule

theorem trans {d'' : Demoted} (h : t.Extends options d d') (h' : t.Extends options d' d'') :
    t.Extends options d d'' := by
  induction h' with
  | refl => exact h
  | add reason _ hle hrule ih => exact .add reason ih hle hrule

theorem suffix (h : t.Extends options d d') : d <:+ d' := by
  induction h with
  | refl => exact List.suffix_rfl
  | add _ _ _ _ ih => exact ih.trans Demoted.suffix_add

/-- Demotion that goes nowhere does nothing. -/
theorem eq_of_length_le (h : t.Extends options d d') (hlen : d'.length ≤ d.length) : d' = d :=
  (h.suffix.eq_of_length_le hlen).symm

theorem antisymm (h : t.Extends options d d') (h' : t.Extends options d' d) : d' = d :=
  h.eq_of_length_le h'.suffix.length_le

theorem kept_subset (h : t.Extends options d d') : t.kept d' ⊆ t.kept d := by
  rintro id ⟨hid, hnot⟩
  refine ⟨hid, Bool.eq_false_iff.mpr fun hc => Bool.eq_false_iff.mp hnot ?_⟩
  obtain ⟨front, rfl⟩ := h.suffix
  rw [Demoted.contains_iff] at hc ⊢
  simp only [List.map_append, List.mem_append]
  exact .inr hc

/-- What the algorithm keeps is reached by the rules. -/
theorem reaches {A : Accelerator} {r : Registry A} (h : t.Extends options d d')
    (hd : t.graph.Reaches r options t.shapes? (t.kept d)) :
    t.graph.Reaches r options t.shapes? (t.kept d') := by
  induction h with
  | refl => exact hd
  | add reason _ hle hrule ih =>
    rw [kept_add]
    exact .demote ih hle hrule

/-- A fold of steps is a step. -/
theorem foldl {α : Type} {f : Demoted → α → Demoted} {xs : List α} {start : Demoted}
    (hstart : t.Extends options start d)
    (h : ∀ x ∈ xs, ∀ d', t.Extends options start d' → t.Extends options d' (f d' x)) :
    t.Extends options d (xs.foldl f d) := by
  induction xs generalizing d with
  | nil => exact .refl d
  | cons x xs ih =>
    have hx := h x List.mem_cons_self d hstart
    exact hx.trans (ih (hstart.trans hx) fun y hy => h y (List.mem_cons_of_mem _ hy))

/-- If a fold of steps does nothing, no step does. -/
theorem eq_of_foldl_eq {α : Type} {f : Demoted → α → Demoted} {xs : List α}
    (h : ∀ x ∈ xs, ∀ d', t.Extends options d d' → t.Extends options d' (f d' x))
    (heq : xs.foldl f d = d) : ∀ x ∈ xs, f d x = d := by
  induction xs with
  | nil =>
    intro x hx
    cases hx
  | cons x xs ih =>
    have hx := h x List.mem_cons_self d (.refl d)
    have hrest : ∀ y ∈ xs, ∀ d', t.Extends options d d' → t.Extends options d' (f d' y) :=
      fun y hy => h y (List.mem_cons_of_mem _ hy)
    have hback : t.Extends options (f d x) (xs.foldl f (f d x)) := foldl hx hrest
    rw [List.foldl_cons] at heq
    rw [heq] at hback
    have hsame : f d x = d := hx.antisymm hback
    rw [hsame] at heq
    intro y hy
    rcases List.mem_cons.mp hy with rfl | hy
    · exact hsame
    · exact ih hrest heq y hy

end Extends

/-! ## The steps of a round -/

theorem feedsEngine_iff (hs : t.Sound) {node : Node} :
    t.feedsEngine d node = true ↔
      ∃ user ∈ t.graph.nodes, user.id ∈ t.kept d ∧ ∃ v ∈ node.outputs, v ∈ user.inputs := by
  simp only [feedsEngine, List.any_eq_true, Bool.not_eq_true']
  constructor
  · rintro ⟨v, hv, id, hu, hnot⟩
    obtain ⟨user, huser, rfl, hread⟩ := (Boundary.mem_users hs.describes).mp hu
    exact ⟨user, huser, (mem_kept huser).mpr hnot, v, hv, hread⟩
  · rintro ⟨user, huser, hkept, v, hv, hread⟩
    refine ⟨v, hv, user.id, (Boundary.mem_users hs.describes).mpr ?_, (mem_kept huser).mp hkept⟩
    exact ⟨user, huser, rfl, hread⟩

theorem extends_demoteConstant (hs : t.Sound) {node : Node} (hn : node ∈ t.graph.nodes) :
    t.Extends options d (t.demoteConstant d node) := by
  unfold demoteConstant
  split
  · next h =>
    refine .single _ subset_rfl (.constant hn h.1 fun user huser hkept v hv hread => ?_)
    have hfeeds := (feedsEngine_iff hs).mpr ⟨user, huser, hkept, v, hv, hread⟩
    rw [hfeeds] at h
    exact absurd h.2 (by simp)
  · exact .refl d

section

variable {S : Set NodeId} {run : List Node} (hs : t.Sound)
  (hrun : IsRun (·.id ∈ S) t.graph.nodes run)

include hs hrun

theorem extends_addReader {v : ValueId} (hv : Enters run v)
    (hbad : ¬ t.graph.MayEnter t.shapes? v) (hle : t.kept d ⊆ S) (reason : FallbackReason)
    {user : NodeId} (hu : user ∈ (t.index.users v).filter (run.map Node.id).contains) :
    t.Extends options d (d.add user reason) := by
  obtain ⟨hu, hm⟩ := List.mem_filter.mp hu
  obtain ⟨node, hn, rfl, hread⟩ := (Boundary.mem_users hs.describes).mp hu
  have hnode := (Boundary.mem_members hs.form hrun.subset hn).mp (List.contains_iff_mem.mp hm)
  exact .single reason hle (.input hrun hnode hread hv.2 hbad)

theorem extends_demoteReaders {v : ValueId} (hv : Enters run v)
    (hbad : ¬ t.graph.MayEnter t.shapes? v) (hle : t.kept d ⊆ S) (reason : FallbackReason) :
    t.Extends options d (t.demoteReaders (run.map Node.id) reason d v) := by
  refine .foldl (.refl d) fun user hu d' hd' => ?_
  exact extends_addReader hs hrun hv hbad (hd'.kept_subset.trans hle) reason hu

/-- If demoting the readers of a value does nothing, they are demoted. -/
theorem contains_of_demoteReaders_eq (options : PartitionOptions) {v : ValueId} (hv : Enters run v)
    (hbad : ¬ t.graph.MayEnter t.shapes? v) (hle : t.kept d ⊆ S) {reason : FallbackReason}
    (heq : t.demoteReaders (run.map Node.id) reason d v = d) {node : Node} (hnode : node ∈ run)
    (hread : v ∈ node.inputs) : d.contains node.id = true := by
  have hstep : ∀ user ∈ (t.index.users v).filter (run.map Node.id).contains, ∀ d',
      t.Extends options d d' → t.Extends options d' (d'.add user reason) :=
    fun user hu d' hd' => extends_addReader hs hrun hv hbad (hd'.kept_subset.trans hle) reason hu
  have hsame := Extends.eq_of_foldl_eq hstep heq
  refine Demoted.contains_of_add_eq (hsame node.id (List.mem_filter.mpr ⟨?_, ?_⟩))
  · exact (Boundary.mem_users hs.describes).mpr ⟨node, hrun.subset hnode, rfl, hread⟩
  · exact List.contains_iff_mem.mpr (List.mem_map_of_mem hnode)

theorem extends_demoteProducer {v : ValueId} (hv : t.graph.Leaves run v)
    (hbad : t.graph.isTensor v = false) (hle : t.kept d ⊆ S) :
    t.Extends options d (t.demoteProducer d v) := by
  obtain ⟨node, hnode, hdef⟩ := hv.1
  have hp := (Boundary.producer?_eq_some hs.describes).mpr ⟨node, hrun.subset hnode, rfl, hdef⟩
  rw [demoteProducer, hp]
  exact .single _ hle (.output hrun hnode hdef hv hbad)

/-- If demoting the node that defines a value does nothing, it is demoted. -/
theorem contains_of_demoteProducer_eq {v : ValueId} {node : Node} (hnode : node ∈ run)
    (hdef : v ∈ node.outputs) (heq : t.demoteProducer d v = d) : d.contains node.id = true := by
  have hp := (Boundary.producer?_eq_some hs.describes).mpr ⟨node, hrun.subset hnode, rfl, hdef⟩
  rw [demoteProducer, hp] at heq
  exact Demoted.contains_of_add_eq heq

theorem mem_badInputs {bad : ValueId → Bool} {v : ValueId} :
    v ∈ (boundaryInputs t.index (run.map Node.id) run).filter bad ↔
      Enters run v ∧ bad v = true := by
  rw [List.mem_filter, Boundary.mem_boundaryInputs hs.form hrun.subset hs.describes]

theorem mem_badOutputs {bad : ValueId → Bool} {v : ValueId} :
    v ∈ (boundaryOutputs t.index (run.map Node.id) run).filter bad ↔
      t.graph.Leaves run v ∧ bad v = true := by
  rw [List.mem_filter, Boundary.mem_boundaryOutputs hs.form hrun.subset hs.describes hs.outputs]

/-- Demoting the readers of bad inputs, one after the other. -/
theorem extends_badInputs (options : PartitionOptions) {bad : ValueId → Bool}
    (hbad : ∀ v, bad v = true → ¬ t.graph.MayEnter t.shapes? v) (reason : ValueId → FallbackReason)
    (hle : t.kept d ⊆ S) :
    ∀ v ∈ (boundaryInputs t.index (run.map Node.id) run).filter bad, ∀ d',
      t.Extends options d d' →
        t.Extends options d' (t.demoteReaders (run.map Node.id) (reason v) d' v) := by
  intro v hv d' hd'
  obtain ⟨henters, hb⟩ := (mem_badInputs hs hrun).mp hv
  exact extends_demoteReaders hs hrun henters (hbad v hb) (hd'.kept_subset.trans hle) (reason v)

theorem extends_badOutputs (options : PartitionOptions) (hle : t.kept d ⊆ S) :
    ∀ v ∈ (boundaryOutputs t.index (run.map Node.id) run).filter fun v => !t.graph.isTensor v,
      ∀ d', t.Extends options d d' → t.Extends options d' (t.demoteProducer d' v) := by
  intro v hv d' hd'
  obtain ⟨hleaves, hb⟩ := (mem_badOutputs hs hrun).mp hv
  have hnot : t.graph.isTensor v = false := by simpa using hb
  exact extends_demoteProducer hs hrun hleaves hnot (hd'.kept_subset.trans hle)

omit hs hrun in
theorem not_mayEnter_of_not_isTensor {v : ValueId} (h : (!t.graph.isTensor v) = true) :
    ¬ t.graph.MayEnter t.shapes? v := by
  intro hmay
  rw [hmay.1] at h
  cases h

theorem extends_demoteNonTensors (hle : t.kept d ⊆ S) :
    t.Extends options d (t.demoteNonTensors d run) := by
  have hinputs : t.Extends options d (List.foldl _ d _) := .foldl (.refl d) (extends_badInputs hs
    hrun options (fun v => not_mayEnter_of_not_isTensor) .nonTensorBoundary hle)
  exact hinputs.trans
    (.foldl (.refl _) (extends_badOutputs hs hrun options (hinputs.kept_subset.trans hle)))

/-- If demoting at boundaries that are no tensors does nothing, their nodes are demoted. -/
theorem quiet_of_demoteNonTensors_eq (options : PartitionOptions) (hle : t.kept d ⊆ S)
    (heq : t.demoteNonTensors d run = d) :
    (∀ v, Enters run v → t.graph.isTensor v = false →
      ∀ node ∈ run, v ∈ node.inputs → d.contains node.id = true) ∧
    (∀ v, t.graph.Leaves run v → t.graph.isTensor v = false →
      ∀ node ∈ run, v ∈ node.outputs → d.contains node.id = true) := by
  have hinputs := extends_badInputs hs hrun options
    (fun v => not_mayEnter_of_not_isTensor) .nonTensorBoundary hle
  have houtputs := extends_badOutputs hs hrun options hle
  have hfirst : t.Extends options d (List.foldl _ d _) := .foldl (.refl d) hinputs
  have hsecond : t.Extends options (List.foldl _ d _) (t.demoteNonTensors d run) := .foldl (.refl _)
    (extends_badOutputs hs hrun options (hfirst.kept_subset.trans hle))
  rw [heq] at hsecond
  have hnone := hfirst.antisymm hsecond
  unfold demoteNonTensors at heq
  simp only [hnone] at heq
  constructor
  · intro v hv hnot node hnode hread
    have hbad : (!t.graph.isTensor v) = true := by simpa using hnot
    have hsame := Extends.eq_of_foldl_eq hinputs hnone v ((mem_badInputs hs hrun).mpr ⟨hv, hbad⟩)
    exact contains_of_demoteReaders_eq hs hrun options hv (not_mayEnter_of_not_isTensor hbad) hle
      hsame hnode hread
  · intro v hv hnot node hnode hdef
    have hbad : (!t.graph.isTensor v) = true := by simpa using hnot
    have hsame := Extends.eq_of_foldl_eq houtputs heq v ((mem_badOutputs hs hrun).mpr ⟨hv, hbad⟩)
    exact contains_of_demoteProducer_eq hs hrun hnode hdef hsame

omit hs hrun in
theorem bindable_iff {shapes : ShapeTable} {v : ValueId} :
    t.bindable shapes v = true ↔ t.graph.Bindable shapes v := by
  rw [bindable, Bool.or_eq_true, Option.any_eq_true]
  simp only [Bool.and_eq_true]
  exact Iff.rfl

omit hs hrun in
theorem not_mayEnter_of_unknown {shapes : ShapeTable} (hshapes : t.shapes? = some shapes)
    {v : ValueId} (h : (t.graph.isTensor v && !t.bindable shapes v) = true) :
    ¬ t.graph.MayEnter t.shapes? v := by
  intro hmay
  rw [bindable_iff.mpr (hmay.2 shapes hshapes), hmay.1] at h
  cases h

theorem extends_demoteUnbindable (hle : t.kept d ⊆ S) :
    t.Extends options d (t.demoteUnbindable d run) := by
  unfold demoteUnbindable
  split
  · exact .refl d
  · next shapes hshapes =>
    exact .foldl (.refl d) (extends_badInputs hs hrun options
      (fun v => not_mayEnter_of_unknown hshapes) .unknownBoundary hle)

/-- If demoting at unknown boundaries does nothing, their nodes are demoted. -/
theorem quiet_of_demoteUnbindable_eq (options : PartitionOptions) (hle : t.kept d ⊆ S)
    (heq : t.demoteUnbindable d run = d) {shapes : ShapeTable} (hshapes : t.shapes? = some shapes)
    {v : ValueId} (hv : Enters run v) (htensor : t.graph.isTensor v = true)
    (hnot : ¬ t.graph.Bindable shapes v) {node : Node} (hnode : node ∈ run)
    (hread : v ∈ node.inputs) : d.contains node.id = true := by
  unfold demoteUnbindable at heq
  rw [hshapes] at heq
  have hbad : (t.graph.isTensor v && !t.bindable shapes v) = true := by
    rw [← bindable_iff, Bool.not_eq_true] at hnot
    rw [htensor, hnot]
    rfl
  have hsame := Extends.eq_of_foldl_eq (extends_badInputs hs hrun options
    (fun v => not_mayEnter_of_unknown hshapes) .unknownBoundary hle) heq v
    ((mem_badInputs hs hrun).mpr ⟨hv, hbad⟩)
  exact contains_of_demoteReaders_eq hs hrun options hv (not_mayEnter_of_unknown hshapes hbad) hle
    hsame hnode hread

omit hs in
theorem extends_addShort (hle : t.kept d ⊆ S) (hlength : run.length < max options.minBlockSize 1) :
    ∀ node ∈ run, ∀ d', t.Extends options d d' → t.Extends options d' (d'.add node.id
      (.belowMinBlockSize run.length (max options.minBlockSize 1))) := by
  intro node hnode d' hd'
  exact .single _ (hd'.kept_subset.trans hle) (.short hrun hnode hlength)

omit hs in
theorem extends_demoteShort (hle : t.kept d ⊆ S) :
    t.Extends options d (demoteShort (max options.minBlockSize 1) d run) := by
  unfold demoteShort
  split
  · next hlength => exact .foldl (.refl d) (extends_addShort hrun hle hlength)
  · exact .refl d

omit hs in
/-- If demoting a run that is too short does nothing, its nodes are demoted. -/
theorem quiet_of_demoteShort_eq (hle : t.kept d ⊆ S)
    (heq : demoteShort (max options.minBlockSize 1) d run = d)
    (hlength : run.length < max options.minBlockSize 1) {node : Node} (hnode : node ∈ run) :
    d.contains node.id = true := by
  rw [demoteShort, if_pos hlength] at heq
  exact Demoted.contains_of_add_eq
    (Extends.eq_of_foldl_eq (extends_addShort hrun hle hlength) heq node hnode)

end

/-! ## Rounds -/

/-- Demoting at the boundaries of a run. -/
def demoteBoundary (t : Terrain) (d : Demoted) (run : List Node) : Demoted :=
  t.demoteUnbindable (t.demoteNonTensors d run) run

variable (options) in
theorem extends_constants (hs : t.Sound) :
    ∀ node ∈ t.graph.nodes, ∀ d', t.Extends options d d' →
      t.Extends options d' (t.demoteConstant d' node) := by
  intro node hn d' _
  exact extends_demoteConstant hs hn

variable (options) in
theorem extends_boundaries (hs : t.Sound) :
    ∀ run ∈ t.runs d, ∀ d', t.Extends options d d' →
      t.Extends options d' (t.demoteBoundary d' run) := by
  intro run hrun d' hd'
  have hfirst : t.Extends options d' (t.demoteNonTensors d' run) :=
    extends_demoteNonTensors hs ((mem_runs hs).mp hrun) hd'.kept_subset
  exact hfirst.trans (extends_demoteUnbindable hs ((mem_runs hs).mp hrun)
    (hfirst.kept_subset.trans hd'.kept_subset))

theorem extends_shorts (hs : t.Sound) :
    ∀ run ∈ t.runs d, ∀ d', t.Extends options d d' →
      t.Extends options d' (demoteShort (max options.minBlockSize 1) d' run) := by
  intro run hrun d' hd'
  exact extends_demoteShort ((mem_runs hs).mp hrun) hd'.kept_subset

/-- The parts of a round: constants, boundaries of the runs then left, and runs that are too short
if nothing else changed. -/
theorem round_parts (hs : t.Sound) (options : PartitionOptions) (d : Demoted) :
    ∃ constants boundaries,
      t.graph.nodes.foldl t.demoteConstant d = constants ∧
      (t.runs constants).foldl t.demoteBoundary constants = boundaries ∧
      t.round (max options.minBlockSize 1) d = (if boundaries.length = d.length then
        (t.runs constants).foldl (demoteShort (max options.minBlockSize 1)) boundaries
        else boundaries) ∧
      t.Extends options d constants ∧ t.Extends options constants boundaries ∧
      t.Extends options boundaries (t.round (max options.minBlockSize 1) d) := by
  have hfirst : t.Extends options d (t.graph.nodes.foldl t.demoteConstant d) :=
    .foldl (.refl d) (extends_constants options hs)
  have hsecond := Extends.foldl (.refl (t.graph.nodes.foldl t.demoteConstant d))
    (extends_boundaries options hs)
  refine ⟨_, _, rfl, rfl, rfl, hfirst, hsecond, ?_⟩
  unfold round
  dsimp only
  split
  · exact .foldl hsecond (extends_shorts hs)
  · exact .refl _

theorem extends_round (hs : t.Sound) :
    t.Extends options d (t.round (max options.minBlockSize 1) d) := by
  obtain ⟨_, _, -, -, -, hfirst, hsecond, hlast⟩ := round_parts hs options d
  exact (hfirst.trans hsecond).trans hlast

/-- A round that changes nothing has changed nothing in any of its parts. -/
theorem quiet_of_round_eq (hs : t.Sound) (heq : t.round (max options.minBlockSize 1) d = d) :
    (∀ node ∈ t.graph.nodes, t.demoteConstant d node = d) ∧
    (∀ run ∈ t.runs d, t.demoteNonTensors d run = d ∧ t.demoteUnbindable d run = d) ∧
    (∀ run ∈ t.runs d, demoteShort (max options.minBlockSize 1) d run = d) := by
  obtain ⟨constants, boundaries, hc, hb, hround, hfirst, hsecond, hlast⟩ :=
    round_parts hs options d
  rw [heq] at hlast
  obtain rfl : constants = d := hfirst.antisymm (hsecond.trans hlast)
  obtain rfl : boundaries = constants := hsecond.antisymm hlast
  rw [if_pos rfl, heq] at hround
  refine ⟨Extends.eq_of_foldl_eq (extends_constants options hs) hc, fun run hrun => ?_,
    Extends.eq_of_foldl_eq (extends_shorts hs) hround.symm⟩
  have hsame := Extends.eq_of_foldl_eq (extends_boundaries options hs) hb run hrun
  have hbefore : t.Extends options boundaries (t.demoteNonTensors boundaries run) :=
    extends_demoteNonTensors hs ((mem_runs hs).mp hrun) subset_rfl
  have hafter : t.Extends options (t.demoteNonTensors boundaries run)
      (t.demoteBoundary boundaries run) :=
    extends_demoteUnbindable hs ((mem_runs hs).mp hrun) hbefore.kept_subset
  rw [hsame] at hafter
  have hnone := hbefore.antisymm hafter
  refine ⟨hnone, ?_⟩
  rw [demoteBoundary, hnone] at hsame
  exact hsame

/-- After a round that changes nothing no rule fires. -/
theorem stuck_of_round_eq (hs : t.Sound) (heq : t.round (max options.minBlockSize 1) d = d) :
    ∀ id ∈ t.kept d, ¬ t.graph.Demotes options t.shapes? (t.kept d) id := by
  obtain ⟨hconstants, hboundaries, hshorts⟩ := quiet_of_round_eq hs heq
  intro id hid hrule
  refine Bool.eq_false_iff.mp hid.2 ?_
  cases hrule with
  | @constant node hnode hkind hunused =>
    have hsame := hconstants node hnode
    have hnot : t.feedsEngine d node = false := by
      rw [← Bool.not_eq_true, feedsEngine_iff hs]
      rintro ⟨user, huser, hkept, v, hv, hread⟩
      exact hunused user huser hkept v hv hread
    rw [demoteConstant, if_pos ⟨hkind, by rw [hnot]; rfl⟩] at hsame
    exact Demoted.contains_of_add_eq hsame
  | short hrun hnode hlength =>
    exact quiet_of_demoteShort_eq hrun subset_rfl (hshorts _ ((mem_runs hs).mpr hrun)) hlength hnode
  | @input run node v hrun hnode hread hout hbad =>
    obtain ⟨htensors, hbindable⟩ := hboundaries run ((mem_runs hs).mpr hrun)
    have henters : Enters run v := ⟨⟨node, hnode, hread⟩, hout⟩
    cases htensor : t.graph.isTensor v with
    | false =>
      exact (quiet_of_demoteNonTensors_eq hs hrun options subset_rfl htensors).1 v henters htensor
        node hnode hread
    | true =>
      have hex : ∃ shapes, t.shapes? = some shapes ∧ ¬ t.graph.Bindable shapes v := by
        by_contra hnone
        refine hbad ⟨htensor, fun shapes hshapes => ?_⟩
        by_contra hnot
        exact hnone ⟨shapes, hshapes, hnot⟩
      obtain ⟨shapes, hshapes, hnot⟩ := hex
      exact quiet_of_demoteUnbindable_eq hs hrun options subset_rfl hbindable hshapes henters
        htensor hnot hnode hread
  | @output run node v hrun hnode hdef hleaves hbad =>
    obtain ⟨htensors, -⟩ := hboundaries run ((mem_runs hs).mpr hrun)
    exact (quiet_of_demoteNonTensors_eq hs hrun options subset_rfl htensors).2 v hleaves hbad
      node hnode hdef

/-! ## Settling -/

/-- The demoted nodes are nodes of the graph, each once. -/
def Listed (t : Terrain) (d : Demoted) : Prop :=
  (d.map Prod.fst).Nodup ∧ d.map Prod.fst ⊆ t.graph.nodeIds

theorem Listed.add (h : t.Listed d) {id : NodeId} (hid : id ∈ t.graph.nodeIds)
    (reason : FallbackReason) : t.Listed (d.add id reason) := by
  unfold Demoted.add
  split
  · exact h
  · next hnot =>
    rw [Demoted.contains_iff] at hnot
    exact ⟨List.nodup_cons.mpr ⟨hnot, h.1⟩, List.cons_subset.mpr ⟨hid, h.2⟩⟩

theorem Listed.extends (h : t.Listed d) (he : t.Extends options d d') : t.Listed d' := by
  induction he with
  | refl => exact h
  | add reason _ _ hrule ih => exact ih.add hrule.mem_nodeIds reason

theorem Listed.length_le (h : t.Listed d) : d.length ≤ t.graph.nodes.length := by
  have hle := List.Nodup.length_le_of_subset h.1 h.2
  simpa [Graph.nodeIds] using hle

theorem extends_settle (hs : t.Sound) (rounds : Nat) :
    t.Extends options d (t.settle (max options.minBlockSize 1) rounds d) := by
  induction rounds generalizing d with
  | zero => exact .refl d
  | succ rounds ih =>
    rw [settle]
    have hround : t.Extends options d (t.round (max options.minBlockSize 1) d) := extends_round hs
    split
    · exact hround
    · exact hround.trans ih

/-- With a round for every node that may still be demoted, the last round changes nothing. -/
theorem round_settle (hs : t.Sound) {rounds : Nat} (hd : t.Listed d)
    (hrounds : t.graph.nodes.length < rounds + d.length) :
    t.round (max options.minBlockSize 1) (t.settle (max options.minBlockSize 1) rounds d) =
      t.settle (max options.minBlockSize 1) rounds d := by
  induction rounds generalizing d with
  | zero =>
    have hlen := hd.length_le
    omega
  | succ rounds ih =>
    have hround : t.Extends options d (t.round (max options.minBlockSize 1) d) := extends_round hs
    have hlen := hround.suffix.length_le
    rw [settle]
    split
    · next hsame =>
      have heq := hround.eq_of_length_le (by omega)
      rw [heq, heq]
    · next hdiff => exact ih (hd.extends hround) (by omega)

end Terrain

end HybridGraph
