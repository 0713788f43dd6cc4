import HybridGraph.Partition.Basic
import HybridGraph.Proofs.Graph.SingleAssignment
/-!
# Boundaries

The boundary of a run, said about the nodes alone: `Enters` and `Graph.Leaves` are the values that
cross it, `Graph.IsBoundary` fixes their order too.  The index of a graph gives it, and a plan is
valid exactly if it covers the graph and its segments have the boundaries of their nodes:

    g.IsBoundary run (boundaryInputs …) (boundaryOutputs …)                  (Boundary.isBoundary)
    p.validate g = .ok () ↔ p.nodes = g.nodeIds ∧ ∃ index, …                (Plan.validate_eq_ok)
-/

namespace HybridGraph

/-! ## Values that cross -/

/-- A node of the run reads the value. -/
def ReadIn (run : List Node) (v : ValueId) : Prop := ∃ node ∈ run, v ∈ node.inputs

/-- A node of the run defines the value. -/
def ProducedIn (run : List Node) (v : ValueId) : Prop := ∃ node ∈ run, v ∈ node.outputs

/-- The run reads the value from outside. -/
def Enters (run : List Node) (v : ValueId) : Prop := ReadIn run v ∧ ¬ ProducedIn run v

/-- The run defines the value for others: it is a graph output or read by a node outside. -/
def Graph.Leaves (g : Graph) (run : List Node) (v : ValueId) : Prop :=
  ProducedIn run v ∧ (v ∈ g.outputs ∨ ∃ node ∈ g.nodes, node ∉ run ∧ v ∈ node.inputs)

/-- The boundary of a run: what it reads from outside in the order of first use, what it defines
for others in the order of definition. -/
structure Graph.IsBoundary (g : Graph) (run : List Node) (inputs outputs : List ValueId) :
    Prop where
  mem_inputs : ∀ v, v ∈ inputs ↔ Enters run v
  firstUse : inputs.Pairwise fun v w =>
    (run.flatMap Node.inputs).idxOf v < (run.flatMap Node.inputs).idxOf w
  mem_outputs : ∀ v, v ∈ outputs ↔ g.Leaves run v
  production : outputs.Sublist (run.flatMap Node.outputs)

/-- No value enters twice. -/
theorem Graph.IsBoundary.nodup_inputs {g : Graph} {run : List Node} {inputs outputs : List ValueId}
    (h : g.IsBoundary run inputs outputs) : inputs.Nodup := by
  refine h.firstUse.imp fun hlt heq => ?_
  rw [heq] at hlt
  omega

/-! ## First uses -/

/-- Adds values that are neither skipped nor there already. -/
def addNew (skip : ValueId → Bool) (seen : List ValueId) (v : ValueId) : List ValueId :=
  if skip v || seen.contains v then seen else seen ++ [v]

variable {skip : ValueId → Bool}

theorem mem_foldl_addNew {reads seen : List ValueId} {v : ValueId} :
    v ∈ reads.foldl (addNew skip) seen ↔ v ∈ seen ∨ (v ∈ reads ∧ skip v = false) := by
  induction reads generalizing seen with
  | nil => simp
  | cons w reads ih =>
    rw [List.foldl_cons, ih, addNew]
    by_cases hw : skip w || seen.contains w
    · rw [if_pos hw, List.mem_cons]
      constructor
      · rintro (h | ⟨h, hs⟩)
        · exact .inl h
        · exact .inr ⟨.inr h, hs⟩
      · rintro (h | ⟨rfl | h, hs⟩)
        · exact .inl h
        · simp only [hs, Bool.false_or, List.contains_iff_mem] at hw
          exact .inl hw
        · exact .inr ⟨h, hs⟩
    · rw [if_neg hw, List.mem_cons, List.mem_append, List.mem_singleton]
      simp only [Bool.or_eq_true, not_or, Bool.not_eq_true] at hw
      constructor
      · rintro ((h | rfl) | ⟨h, hs⟩)
        · exact .inl h
        · exact .inr ⟨.inl rfl, hw.1⟩
        · exact .inr ⟨.inr h, hs⟩
      · rintro (h | ⟨rfl | h, hs⟩)
        · exact .inl (.inl h)
        · exact .inl (.inr rfl)
        · exact .inr ⟨h, hs⟩

/-- Values are added in the order in which they are first read. -/
theorem pairwise_foldl_addNew (skip : ValueId → Bool) (reads : List ValueId) :
    (reads.foldl (addNew skip) []).Pairwise fun v w => reads.idxOf v < reads.idxOf w := by
  induction reads using List.reverseRecOn with
  | nil => exact .nil
  | append_singleton reads w ih =>
    have hmem : ∀ v ∈ reads.foldl (addNew skip) [], v ∈ reads := by
      intro v hv
      rcases mem_foldl_addNew.mp hv with hv | ⟨hv, -⟩
      · cases hv
      · exact hv
    -- places in the longer list are the old places
    have hkept : (reads.foldl (addNew skip) []).Pairwise fun v w' =>
        (reads ++ [w]).idxOf v < (reads ++ [w]).idxOf w' := by
      refine ih.imp_of_mem fun hv hw' hlt => ?_
      rw [List.idxOf_append_of_mem (hmem _ hv), List.idxOf_append_of_mem (hmem _ hw')]
      exact hlt
    rw [List.foldl_append, List.foldl_cons, List.foldl_nil, addNew]
    split
    · exact hkept
    · next hw =>
      simp only [Bool.or_eq_true, not_or, Bool.not_eq_true] at hw
      refine List.pairwise_append.mpr ⟨hkept, List.pairwise_singleton _ _, fun v hv w' hw' => ?_⟩
      obtain rfl := List.mem_singleton.mp hw'
      have hnot : w' ∉ reads := by
        intro hr
        have hseen := mem_foldl_addNew.mpr (.inr ⟨hr, hw.1⟩ : w' ∈ [] ∨ _)
        simp [hseen] at hw
      rw [List.idxOf_append_of_mem (hmem v hv), List.idxOf_append_of_notMem hnot]
      have hlt := List.idxOf_lt_length_iff.mpr (hmem v hv)
      omega

/-! ## What the index says about a run -/

namespace Boundary

variable {g : Graph} {index : GraphIndex} {run : List Node} {v : ValueId}

theorem producer?_eq_some (hd : index.Describes g.inputs g.nodes) {id : NodeId} :
    index.producer? v = some id ↔ ∃ node ∈ g.nodes, node.id = id ∧ v ∈ node.outputs := by
  constructor
  · intro h
    unfold GraphIndex.producer? at h
    split at h
    · next id' slot hdef =>
      obtain rfl : id' = id := by simpa using h
      obtain ⟨node, hn, hid, hv⟩ := (hd.node v id' slot).mp hdef
      exact ⟨node, hn, hid, List.mem_of_getElem? hv⟩
    · cases h
  · rintro ⟨node, hn, rfl, hv⟩
    obtain ⟨slot, hs⟩ := List.mem_iff_getElem?.mp hv
    have hdef := (hd.node v node.id slot).mpr ⟨node, hn, rfl, hs⟩
    simp [GraphIndex.producer?, hdef]

theorem mem_users (hd : index.Describes g.inputs g.nodes) {id : NodeId} :
    id ∈ index.users v ↔ ∃ node ∈ g.nodes, node.id = id ∧ v ∈ node.inputs := by
  rw [hd.users, List.mem_map]
  constructor
  · rintro ⟨node, hn, hid⟩
    obtain ⟨hn, hv⟩ := List.mem_filter.mp hn
    exact ⟨node, hn, hid, by simpa using hv⟩
  · rintro ⟨node, hn, hid, hv⟩
    exact ⟨node, List.mem_filter.mpr ⟨hn, by simpa using hv⟩, hid⟩

section

variable (hg : g.SingleAssignment) (hrun : run ⊆ g.nodes)

include hg hrun

/-- The members of a run are its nodes. -/
theorem mem_members {node : Node} (hn : node ∈ g.nodes) :
    node.id ∈ run.map Node.id ↔ node ∈ run := by
  rw [List.mem_map]
  constructor
  · rintro ⟨other, ho, hid⟩
    rw [← hg.nodes.eq_of_id (hrun ho) hn hid]
    exact ho
  · intro h
    exact ⟨node, h, rfl⟩

variable (hd : index.Describes g.inputs g.nodes)

include hd

theorem any_producer_iff :
    (index.producer? v).any (run.map Node.id).contains = true ↔ ProducedIn run v := by
  rw [Option.any_eq_true]
  constructor
  · rintro ⟨id, hp, hm⟩
    obtain ⟨node, hn, rfl, hv⟩ := (producer?_eq_some hd).mp hp
    exact ⟨node, (mem_members hg hrun hn).mp (by simpa using hm), hv⟩
  · rintro ⟨node, hn, hv⟩
    refine ⟨node.id, (producer?_eq_some hd).mpr ⟨node, hrun hn, rfl, hv⟩, ?_⟩
    simpa using ⟨node, hn, rfl⟩

theorem escapes_iff (hout : index.outputs = g.outputs) :
    escapes index (run.map Node.id) v = true ↔
      v ∈ g.outputs ∨ ∃ node ∈ g.nodes, node ∉ run ∧ v ∈ node.inputs := by
  rw [escapes, Bool.or_eq_true, GraphIndex.isOutput, hout, List.contains_iff_mem, List.any_eq_true]
  refine or_congr Iff.rfl ⟨?_, ?_⟩
  · rintro ⟨id, hu, hm⟩
    obtain ⟨node, hn, rfl, hv⟩ := (mem_users hd).mp hu
    refine ⟨node, hn, fun hr => ?_, hv⟩
    have hin := (mem_members hg hrun hn).mpr hr
    rw [List.contains_iff_mem.mpr hin] at hm
    cases hm
  · rintro ⟨node, hn, hr, hv⟩
    refine ⟨node.id, (mem_users hd).mpr ⟨node, hn, rfl, hv⟩, ?_⟩
    have hnot : node.id ∉ run.map Node.id := fun hm => hr ((mem_members hg hrun hn).mp hm)
    rw [Bool.not_eq_true', ← Bool.not_eq_true, List.contains_iff_mem]
    exact hnot

theorem mem_boundaryInputs : v ∈ boundaryInputs index (run.map Node.id) run ↔ Enters run v := by
  show v ∈ (run.flatMap Node.inputs).foldl
    (addNew fun v => (index.producer? v).any (run.map Node.id).contains) [] ↔ _
  rw [mem_foldl_addNew, List.mem_flatMap, ← Bool.not_eq_true, any_producer_iff hg hrun hd]
  constructor
  · rintro (h | h)
    · cases h
    · exact h
  · exact .inr

theorem mem_boundaryOutputs (hout : index.outputs = g.outputs) :
    v ∈ boundaryOutputs index (run.map Node.id) run ↔ g.Leaves run v := by
  rw [boundaryOutputs, List.mem_filter, List.mem_flatMap, escapes_iff hg hrun hd hout]
  exact Iff.rfl

/-- The computed boundary is the boundary. -/
theorem isBoundary (hout : index.outputs = g.outputs) :
    g.IsBoundary run (boundaryInputs index (run.map Node.id) run)
      (boundaryOutputs index (run.map Node.id) run) where
  mem_inputs _ := mem_boundaryInputs hg hrun hd
  firstUse := pairwise_foldl_addNew _ _
  mem_outputs _ := mem_boundaryOutputs hg hrun hd hout
  production := List.filter_sublist

/-- The nodes that the index finds for the members of a run are the run. -/
theorem nodesAt_map_id : Plan.nodesAt g index (run.map Node.id) = run := by
  induction run with
  | nil => rfl
  | cons node rest ih =>
    have hmem : node ∈ g.nodes := hrun List.mem_cons_self
    have hrest := ih fun n hn => hrun (List.mem_cons_of_mem _ hn)
    have hfound : ((index.position? node.id).bind fun position => g.nodes[position]?) =
        some node := by
      rw [hd.position]
      obtain ⟨i, hi⟩ := List.mem_iff_getElem?.mp hmem
      cases hf : g.nodes.findIdx? (·.id = node.id) with
      | none => exact absurd (List.findIdx?_eq_none_iff.mp hf node hmem) (by simp)
      | some j =>
        obtain ⟨hj, hid, -⟩ := List.findIdx?_eq_some_iff_getElem.mp hf
        have heq : g.nodes[j] = node :=
          hg.nodes.eq_of_id (List.getElem_mem hj) hmem (by simpa using hid)
        simp [hj, heq]
    show List.filterMap _ (node.id :: rest.map Node.id) = node :: rest
    rw [List.filterMap_cons, hfound]
    exact congrArg (node :: ·) hrest

end

end Boundary

/-! ## Valid plans -/

namespace Plan

theorem checkSegment_eq_ok {g : Graph} {index : GraphIndex} {s : Segment} :
    checkSegment g index s = .ok () ↔
      s.nodes ≠ [] ∧ boundaryInputs index s.nodes (nodesAt g index s.nodes) = s.inputs ∧
        boundaryOutputs index s.nodes (nodesAt g index s.nodes) = s.outputs := by
  unfold checkSegment
  by_cases hempty : s.nodes = []
  · simp [hempty, bind, Except.bind, throw, throwThe, MonadExceptOf.throw]
  · by_cases hin : boundaryInputs index s.nodes (nodesAt g index s.nodes) = s.inputs
    · by_cases hout : boundaryOutputs index s.nodes (nodesAt g index s.nodes) = s.outputs
      · simp [hempty, hin, hout, pure, Except.pure]
      · simp [hempty, hout, throw, throwThe, MonadExceptOf.throw]
    · simp [hempty, hin, throw, throwThe, MonadExceptOf.throw]

theorem validate_eq_ok {p : Plan} {g : Graph} :
    p.validate g = .ok () ↔
      p.nodes = g.nodeIds ∧ ∃ index, GraphIndex.build g = .ok index ∧
        ∀ s ∈ p.segments, checkSegment g index s = .ok () := by
  unfold validate
  by_cases hcover : p.nodes = g.nodeIds
  · rw [if_neg (not_not_intro hcover)]
    simp only [Outcome.bind_eq_ok, Outcome.mapError_eq_ok, Outcome.forM_eq_ok]
    constructor
    · rintro ⟨index, hindex, hall⟩
      exact ⟨hcover, index, hindex, hall⟩
    · rintro ⟨-, hall⟩
      exact hall
  · rw [if_pos hcover]
    constructor
    · intro h
      cases h
    · intro h
      exact absurd h.1 hcover

/-- The segments of a valid plan have the boundaries of their nodes. -/
theorem isBoundary_of_validate {p : Plan} {g : Graph} (h : p.validate g = .ok ()) {s : Segment}
    (hs : s ∈ p.segments) {run : List Node} (hrun : s.nodes = run.map Node.id)
    (hsub : run ⊆ g.nodes) : g.IsBoundary run s.inputs s.outputs := by
  obtain ⟨-, index, hindex, hall⟩ := validate_eq_ok.mp h
  obtain ⟨hform, hdescribes, houtputs⟩ := GraphIndex.describes_of_build hindex
  obtain ⟨-, hin, hout⟩ := checkSegment_eq_ok.mp (hall s hs)
  rw [hrun, Boundary.nodesAt_map_id hform hsub hdescribes] at hin hout
  rw [← hin, ← hout]
  exact Boundary.isBoundary hform hsub hdescribes houtputs

end Plan

end HybridGraph
