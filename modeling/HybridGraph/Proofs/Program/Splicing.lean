import HybridGraph.Program.Assembly
import HybridGraph.Proofs.Execute.Agreement
import HybridGraph.Proofs.Partition.Boundary
/-!
# Calls in the place of segments

`Graph.Spliced` relates blocks, the nodes they cover and a node list in which one call stands for
each segment.  Values that never leave a segment disappear, all others stay, so the new list is in
single assignment form; and if calls answer what their segments answer, it computes what the old
list computes:

    g.Spliced names blocks nodes spliced → InOrder g.values.size g.inputs spliced      (inOrder)
    … → nodes.foldlM (runNode interpret) start = .ok bound →
      ∃ bound', spliced.foldlM (runNode step) start = .ok bound' ∧ Agree … bound' bound (simulates)
-/

namespace HybridGraph

theorem Plan.segments_append (front back : List Block) :
    Plan.segments ⟨front ++ back⟩ = Plan.segments ⟨front⟩ ++ Plan.segments ⟨back⟩ :=
  List.filterMap_append

namespace Graph

/-- Runs the nodes of a segment on the values of its inputs and answers those of its outputs. -/
def runSegment (g : Graph) (interpret : Interpreter) (s : Segment) (args : List Datum) :
    Except ExecError (List Datum) := do
  let bound ← (s.nodes.filterMap g.node?).foldlM (runNode interpret) (.extend [] s.inputs args)
  s.outputs.mapM bound.read

/-- A call answers what its segment answers, whenever the segment can be run. -/
def Faithful (g : Graph) (interpret step : Interpreter) (s : Segment) (call : Node) : Prop :=
  ∀ args results, args.length = s.inputs.length → g.runSegment interpret s args = .ok results →
    step call args = .ok results

/-- Calls stand for the segments of blocks; `names` says which call is for which segment. -/
inductive Spliced (g : Graph) (names : Segment → Node → Prop) :
    List Block → List Node → List Node → Prop where
  | nil : Spliced g names [] [] []
  | keep {blocks : List Block} {nodes spliced : List Node} {node : Node} {reason : FallbackReason}
      (h : Spliced g names blocks nodes spliced) (hkind : node.isEngineCall = false) :
      Spliced g names (blocks ++ [.fallback node.id reason]) (nodes ++ [node]) (spliced ++ [node])
  | call {blocks : List Block} {nodes spliced run : List Node} {s : Segment} {call : Node}
      (h : Spliced g names blocks nodes spliced) (hrun : s.nodes.filterMap g.node? = run)
      (hboundary : g.IsBoundary run s.inputs s.outputs) (hinputs : call.inputs = s.inputs)
      (houtputs : call.outputs = s.outputs) (hkind : call.isEngineCall = true)
      (hfresh : call.id ∉ spliced.map Node.id) (hlate : g.nextNode ≤ call.id.number)
      (hnames : names s call) :
      Spliced g names (blocks ++ [.segment s]) (nodes ++ run) (spliced ++ [call])

/-! ## Segments of an ordered node list -/

section

variable {g : Graph} (hg : g.SingleAssignment) {nodes run rest : List Node}
  (hsplit : g.nodes = nodes ++ (run ++ rest))

include hg hsplit

theorem mayFollow_of_split {front back : List Node} {node : Node}
    (hrun : run = front ++ node :: back) :
    node.MayFollow g.values.size g.inputs (nodes ++ front) := by
  refine hg.nodes (nodes ++ front) node (back ++ rest) ?_
  rw [hsplit, hrun]
  simp

/-- A node of a run does not stand in front of it. -/
theorem notMem_before {node : Node} (hn : node ∈ run) : node ∉ nodes := by
  obtain ⟨front, back, hrun⟩ := List.append_of_mem hn
  intro hm
  refine (mayFollow_of_split hg hsplit hrun).fresh (List.mem_map_of_mem ?_)
  exact List.mem_append_left _ hm

/-- What a run defines does not exist before it. -/
theorem unassigned_of_produced {v : ValueId} (hv : ProducedIn run v) :
    v ∉ definedBy g.inputs nodes := by
  obtain ⟨node, hn, hv⟩ := hv
  obtain ⟨front, back, hrun⟩ := List.append_of_mem hn
  intro hm
  refine (mayFollow_of_split hg hsplit hrun).unassigned v hv ?_
  exact definedBy_subset_append g.inputs nodes front hm

/-- What enters a run exists before it. -/
theorem defined_of_enters {v : ValueId} (hv : Enters run v) : v ∈ definedBy g.inputs nodes := by
  obtain ⟨⟨node, hn, hread⟩, hout⟩ := hv
  obtain ⟨front, back, hrun⟩ := List.append_of_mem hn
  have hdefined := (mayFollow_of_split hg hsplit hrun).reads v hread
  rw [definedBy_append, List.mem_append, List.mem_flatMap] at hdefined
  refine hdefined.resolve_right fun hfront => hout ?_
  obtain ⟨producer, hp, hdef⟩ := hfront
  exact ⟨producer, by rw [hrun]; exact List.mem_append_left _ hp, hdef⟩

/-- A node of a run reads what enters the run and what nodes in front of it define. -/
theorem reads_of_split {inputs : List ValueId} (hinputs : ∀ v, v ∈ inputs ↔ Enters run v)
    {front back : List Node} {node : Node} (hrun : run = front ++ node :: back) :
    node.inputs ⊆ inputs ++ front.flatMap Node.outputs := by
  intro v hv
  rw [List.mem_append, hinputs]
  by_cases hproduced : ProducedIn run v
  · have hdefined := (mayFollow_of_split hg hsplit hrun).reads v hv
    rw [definedBy_append, List.mem_append] at hdefined
    exact .inr (hdefined.resolve_left (unassigned_of_produced hg hsplit hproduced))
  · refine .inl ⟨⟨node, ?_, hv⟩, hproduced⟩
    rw [hrun]
    simp

end

namespace Spliced

variable {g : Graph} {names : Segment → Node → Prop} {blocks : List Block}
  {nodes spliced : List Node}

/-! ## Segments and their calls -/

/-- The calls stand in the order of their segments. -/
theorem forall₂_calls (h : g.Spliced names blocks nodes spliced) :
    List.Forall₂ (fun s call => names s call ∧ call.inputs = s.inputs ∧ call.outputs = s.outputs)
      (Plan.segments ⟨blocks⟩) (spliced.filter Node.isEngineCall) := by
  induction h with
  | nil => exact .nil
  | keep _ hkind ih =>
    rw [Plan.segments_append, List.filter_append, List.filter_singleton, hkind]
    exact List.rel_append ih .nil
  | call _ _ _ hinputs houtputs hkind _ _ hnames ih =>
    rw [Plan.segments_append, List.filter_append, List.filter_singleton, hkind]
    exact List.rel_append ih (.cons ⟨hnames, hinputs, houtputs⟩ .nil)

/-- Which call is for which segment may be said in another way. -/
theorem imp {names' : Segment → Node → Prop} (h : g.Spliced names blocks nodes spliced)
    (himp : ∀ s ∈ Plan.segments ⟨blocks⟩, ∀ call ∈ spliced.filter Node.isEngineCall,
      names s call → names' s call) : g.Spliced names' blocks nodes spliced := by
  induction h with
  | nil => exact .nil
  | keep _ hkind ih =>
    refine .keep (ih fun s hs call hcall => himp s ?_ call ?_) hkind
    · rw [Plan.segments_append]
      exact List.mem_append_left _ hs
    · rw [List.filter_append]
      exact List.mem_append_left _ hcall
  | @call _ _ _ _ s call _ hrun hboundary hinputs houtputs hkind hfresh hlate hnames ih =>
    refine .call (ih fun s hs call hcall => himp s ?_ call ?_) hrun hboundary hinputs houtputs
      hkind hfresh hlate (himp s ?_ call ?_ hnames)
    · rw [Plan.segments_append]
      exact List.mem_append_left _ hs
    · rw [List.filter_append]
      exact List.mem_append_left _ hcall
    · rw [Plan.segments_append]
      exact List.mem_append_right _ List.mem_cons_self
    · exact List.mem_filter.mpr ⟨by simp, hkind⟩

/-! ## Which values stay -/

/-- No value is new. -/
theorem definedBy_subset (h : g.Spliced names blocks nodes spliced) :
    definedBy g.inputs spliced ⊆ definedBy g.inputs nodes := by
  induction h with
  | nil => exact List.Subset.refl _
  | keep _ _ ih =>
    rw [definedBy_append, definedBy_append]
    exact List.append_subset.mpr ⟨List.subset_append_of_subset_left _ ih,
      List.subset_append_right _ _⟩
  | call _ _ hboundary _ houtputs _ _ _ _ ih =>
    rw [definedBy_append, definedBy_append, List.flatMap_singleton, houtputs]
    exact List.append_subset.mpr ⟨List.subset_append_of_subset_left _ ih,
      List.subset_append_of_subset_right _ hboundary.production.subset⟩

/-- A value stays if it is a graph output or read by a later node. -/
theorem mem_definedBy_of_needed (h : g.Spliced names blocks nodes spliced) {v : ValueId}
    (hv : v ∈ definedBy g.inputs nodes)
    (hneeded : v ∈ g.outputs ∨ ∃ reader ∈ g.nodes, reader ∉ nodes ∧ v ∈ reader.inputs) :
    v ∈ definedBy g.inputs spliced := by
  -- a later node is later than every part of the list
  have hlater : ∀ {front back : List Node},
      (v ∈ g.outputs ∨ ∃ reader ∈ g.nodes, reader ∉ front ++ back ∧ v ∈ reader.inputs) →
        (v ∈ g.outputs ∨ ∃ reader ∈ g.nodes, reader ∉ front ∧ v ∈ reader.inputs) ∧
        (v ∈ g.outputs ∨ ∃ reader ∈ g.nodes, reader ∉ back ∧ v ∈ reader.inputs) := by
    rintro front back (hout | ⟨reader, hr, hnot, hread⟩)
    · exact ⟨.inl hout, .inl hout⟩
    · rw [List.mem_append, not_or] at hnot
      exact ⟨.inr ⟨reader, hr, hnot.1, hread⟩, .inr ⟨reader, hr, hnot.2, hread⟩⟩
  induction h with
  | nil => exact hv
  | keep _ _ ih =>
    rw [definedBy_append, List.mem_append] at hv ⊢
    rcases hv with hv | hv
    · exact .inl (ih hv (hlater hneeded).1)
    · exact .inr hv
  | call _ _ hboundary _ houtputs _ _ _ _ ih =>
    rw [definedBy_append, List.mem_append] at hv ⊢
    rcases hv with hv | hv
    · exact .inl (ih hv (hlater hneeded).1)
    · rw [List.flatMap_singleton, houtputs, hboundary.mem_outputs]
      exact .inr ⟨List.mem_flatMap.mp hv, (hlater hneeded).2⟩

/-! ## The new list is in order -/

/-- Every node is an old one or a call with a later id. -/
theorem old_or_late (h : g.Spliced names blocks nodes spliced) :
    ∀ node ∈ spliced, node ∈ nodes ∨ (g.nextNode ≤ node.id.number ∧ node.isEngineCall = true) := by
  induction h with
  | nil =>
    intro node hn
    cases hn
  | keep _ _ ih =>
    intro node hn
    rw [List.mem_append] at hn ⊢
    rcases hn with hn | hn
    · exact (ih node hn).imp .inl id
    · exact .inl (.inr hn)
  | call _ _ _ _ _ hkind _ hlate _ ih =>
    intro node hn
    rw [List.mem_append, List.mem_singleton] at hn
    rcases hn with hn | rfl
    · exact (ih node hn).imp (List.mem_append_left _) id
    · exact .inr ⟨hlate, hkind⟩

/-- A node that is kept may follow the new list. -/
theorem mayFollow_keep (h : g.Spliced names blocks nodes spliced) (hg : g.SingleAssignment)
    (hids : ∀ node ∈ g.nodes, node.id.number < g.nextNode) {node : Node} {rest : List Node}
    (hsplit : g.nodes = nodes ++ ([node] ++ rest)) :
    node.MayFollow g.values.size g.inputs spliced := by
  have hmem : node ∈ g.nodes := by simp [hsplit]
  have hnode : node.MayFollow g.values.size g.inputs (nodes ++ []) :=
    mayFollow_of_split hg hsplit rfl
  rw [List.append_nil] at hnode
  exact {
    fresh := by
      intro hm
      obtain ⟨other, ho, hid⟩ := List.mem_map.mp hm
      rcases h.old_or_late other ho with hold | ⟨hlate, -⟩
      · exact hnode.fresh (List.mem_map.mpr ⟨other, hold, hid⟩)
      · have hlt := hids node hmem
        rw [hid] at hlate
        omega
    reads := by
      intro v hv
      refine h.mem_definedBy_of_needed (hnode.reads v hv) (.inr ⟨node, hmem, ?_, hv⟩)
      exact notMem_before hg hsplit List.mem_cons_self
    distinct := hnode.distinct
    unassigned := fun v hv hm => hnode.unassigned v hv (h.definedBy_subset hm)
    known := hnode.known }

/-- A call of a later id may follow the new list, in the place of its segment. -/
theorem mayFollow_call (h : g.Spliced names blocks nodes spliced) (hg : g.SingleAssignment)
    {s : Segment} {call : Node} {run rest : List Node}
    (hsplit : g.nodes = nodes ++ (run ++ rest)) (hboundary : g.IsBoundary run s.inputs s.outputs)
    (hinputs : call.inputs = s.inputs) (houtputs : call.outputs = s.outputs)
    (hfresh : call.id ∉ spliced.map Node.id) : call.MayFollow g.values.size g.inputs spliced := by
  have hproduced : ∀ v ∈ call.outputs, ProducedIn run v := by
    intro v hv
    rw [houtputs, hboundary.mem_outputs] at hv
    exact hv.1
  exact {
    fresh := hfresh
    reads := by
      intro v hv
      rw [hinputs, hboundary.mem_inputs] at hv
      obtain ⟨reader, hr, hread⟩ := hv.1
      refine h.mem_definedBy_of_needed (defined_of_enters hg hsplit hv)
        (.inr ⟨reader, ?_, notMem_before hg hsplit hr, hread⟩)
      rw [hsplit]
      simp [hr]
    distinct := by
      have hall := hg.nodes.nodup_flatMap_outputs
      rw [hsplit, List.flatMap_append, List.flatMap_append] at hall
      rw [houtputs]
      have hrun := (List.nodup_append.mp (List.nodup_append.mp hall).2.1).1
      exact hrun.sublist hboundary.production
    unassigned := by
      intro v hv hm
      exact unassigned_of_produced hg hsplit (hproduced v hv) (h.definedBy_subset hm)
    known := by
      intro v hv
      obtain ⟨node, hn, hdef⟩ := hproduced v hv
      obtain ⟨front, back, hrun⟩ := List.append_of_mem hn
      exact (mayFollow_of_split hg hsplit hrun).known v hdef }

/-- The new list is in order. -/
theorem inOrder (h : g.Spliced names blocks nodes spliced) (hg : g.SingleAssignment)
    (hids : ∀ node ∈ g.nodes, node.id.number < g.nextNode) {rest : List Node}
    (hsplit : g.nodes = nodes ++ rest) : InOrder g.values.size g.inputs spliced := by
  induction h generalizing rest with
  | nil => exact inOrder_nil _ _
  | keep h _ ih =>
    rw [List.append_assoc] at hsplit
    exact inOrder_concat.mpr ⟨ih hsplit, h.mayFollow_keep hg hids hsplit⟩
  | call h _ hboundary hinputs houtputs _ hfresh _ _ ih =>
    rw [List.append_assoc] at hsplit
    exact inOrder_concat.mpr
      ⟨ih hsplit, h.mayFollow_call hg hsplit hboundary hinputs houtputs hfresh⟩

/-! ## The new list computes the same -/

/-- The nodes of a run compute from the values that enter it what leaves it. -/
theorem exists_runSegment {interpret : Interpreter} {s : Segment} {args : List Datum}
    {run : List Node} {bound bound' : Bindings} (hg : g.SingleAssignment) {rest : List Node}
    (hsplit : g.nodes = nodes ++ (run ++ rest)) (hrun : s.nodes.filterMap g.node? = run)
    (hboundary : g.IsBoundary run s.inputs s.outputs) (hargs : s.inputs.mapM bound.read = .ok args)
    (h : run.foldlM (runNode interpret) bound = .ok bound') :
    ∃ results, g.runSegment interpret s args = .ok results ∧
      s.outputs.mapM bound'.read = .ok results := by
  have hstart : Bindings.Agree s.inputs (.extend [] s.inputs args) bound :=
    Bindings.agree_extend_of_mapM_read hargs
  obtain ⟨inner, hinner, hagree⟩ := foldlM_runNode_agree h hstart
    fun front node back hn => reads_of_split hg hsplit hboundary.mem_inputs hn
  obtain ⟨results, hresults⟩ := Bindings.exists_mapM_read fun v hv =>
    exists_read_of_mem_outputs h (hboundary.production.subset hv)
  refine ⟨results, ?_, hresults⟩
  rw [runSegment, hrun, hinner]
  show s.outputs.mapM inner.read = _
  rw [hagree.mapM_read (List.subset_append_of_subset_right _ hboundary.production.subset)]
  exact hresults

/-- What enters a run is bound when the nodes before it have run. -/
theorem exists_read_of_enters {interpret : Interpreter} {run rest : List Node}
    {start mid : Bindings} (hg : g.SingleAssignment) (hsplit : g.nodes = nodes ++ (run ++ rest))
    (hstart : ∀ v ∈ g.inputs, ∃ x, start.read v = .ok x)
    (hmid : nodes.foldlM (runNode interpret) start = .ok mid) {v : ValueId} (hv : Enters run v) :
    ∃ x, mid.read v = .ok x := by
  by_cases hout : v ∈ nodes.flatMap Node.outputs
  · exact exists_read_of_mem_outputs hmid hout
  · rw [read_of_notMem_outputs hmid hout]
    exact hstart v ((List.mem_append.mp (defined_of_enters hg hsplit hv)).resolve_right hout)

/-- A faithful call answers what the nodes of its segment compute, where the runs before it
agree. -/
theorem runNode_call (h : g.Spliced names blocks nodes spliced) (hg : g.SingleAssignment)
    {interpret step : Interpreter} {s : Segment} {call : Node} {run rest : List Node}
    (hsplit : g.nodes = nodes ++ (run ++ rest)) (hrun : s.nodes.filterMap g.node? = run)
    (hboundary : g.IsBoundary run s.inputs s.outputs) (hinputs : call.inputs = s.inputs)
    (houtputs : call.outputs = s.outputs) (hfaithful : g.Faithful interpret step s call)
    (hreads : s.inputs ⊆ definedBy g.inputs spliced) {mid mid' bound : Bindings}
    (hbound : ∀ v ∈ s.inputs, ∃ x, mid.read v = .ok x)
    (hmany : run.foldlM (runNode interpret) mid = .ok bound)
    (hagree : Bindings.Agree (definedBy g.inputs spliced) mid' mid) :
    ∃ bound', runNode step mid' call = .ok bound' ∧
      Bindings.Agree (definedBy g.inputs (spliced ++ [call])) bound' bound := by
  obtain ⟨args, hargs⟩ := Bindings.exists_mapM_read hbound
  obtain ⟨results, hresults, hleave⟩ := exists_runSegment hg hsplit hrun hboundary hargs hmany
  have hanswer := hfaithful args results (Bindings.length_of_mapM_read hargs) hresults
  refine ⟨mid'.extend call.outputs results, ?_, fun v hv => ?_⟩
  · refine runNode_eq_ok.mpr ⟨args, results, ?_, hanswer, ?_, rfl⟩
    · rw [hinputs, hagree.mapM_read hreads]
      exact hargs
    · rw [houtputs]
      exact Bindings.length_of_mapM_read hleave
  · rw [definedBy_append, List.flatMap_singleton, List.mem_append] at hv
    by_cases hlast : v ∈ call.outputs
    · rw [houtputs] at hlast ⊢
      exact Bindings.agree_extend_of_mapM_read hleave v hlast
    · -- the run does not define a value that was there before
      have hold := hv.resolve_right hlast
      have hnot : v ∉ run.flatMap Node.outputs := fun hm =>
        unassigned_of_produced hg hsplit (List.mem_flatMap.mp hm) (h.definedBy_subset hold)
      rw [Bindings.read_extend_of_notMem hlast, read_of_notMem_outputs hmany hnot]
      exact hagree v hold

/-- If calls are faithful, the new list computes what the old one computes. -/
theorem simulates (h : g.Spliced names blocks nodes spliced) (hg : g.SingleAssignment)
    {interpret step : Interpreter}
    (hstep : ∀ node, node.isEngineCall = false → step node = interpret node)
    (hnames : ∀ s call, names s call → g.Faithful interpret step s call)
    (horder : InOrder g.values.size g.inputs spliced) {rest : List Node}
    (hsplit : g.nodes = nodes ++ rest) {start bound : Bindings}
    (hstart : ∀ v ∈ g.inputs, ∃ x, start.read v = .ok x)
    (hrun : nodes.foldlM (runNode interpret) start = .ok bound) :
    ∃ bound', spliced.foldlM (runNode step) start = .ok bound' ∧
      Bindings.Agree (definedBy g.inputs spliced) bound' bound := by
  induction h generalizing rest bound with
  | nil =>
    obtain rfl := Outcome.pure_eq_ok.mp hrun
    exact ⟨start, rfl, fun v _ => rfl⟩
  | @keep _ nodes spliced node _ h hkind ih =>
    obtain ⟨mid, hmid, hnode⟩ := foldlM_runNode_concat.mp hrun
    obtain ⟨horder', hfollow⟩ := inOrder_concat.mp horder
    obtain ⟨mid', hmid', hagree⟩ := ih horder' (by rw [hsplit, List.append_assoc]) hmid
    obtain ⟨bound', hbound', hlast⟩ := runNode_agree hnode hagree hfollow.reads
    refine ⟨bound', foldlM_runNode_concat.mpr ⟨mid', hmid', ?_⟩, ?_⟩
    · rw [runNode_eq, hstep node hkind]
      exact hbound'
    · rw [definedBy_append, List.flatMap_singleton]
      exact hlast
  | @call _ nodes spliced run s call h hnodes hboundary hinputs houtputs _ _ _ hname ih =>
    rw [List.append_assoc] at hsplit
    obtain ⟨mid, hmid, hmany⟩ := Outcome.foldlM_append_eq_ok.mp hrun
    obtain ⟨horder', hfollow⟩ := inOrder_concat.mp horder
    obtain ⟨mid', hmid', hagree⟩ := ih horder' hsplit hmid
    have hbound : ∀ v ∈ s.inputs, ∃ x, mid.read v = .ok x := fun v hv =>
      exists_read_of_enters hg hsplit hstart hmid ((hboundary.mem_inputs v).mp hv)
    obtain ⟨bound', hcall, hlast⟩ := h.runNode_call hg hsplit hnodes hboundary hinputs houtputs
      (hnames s call hname) (hinputs ▸ hfollow.reads) hbound hmany hagree
    exact ⟨bound', foldlM_runNode_concat.mpr ⟨mid', hmid', hcall⟩, hlast⟩

end Spliced

end Graph

end HybridGraph
