import HybridGraph.Proofs.Program.Assembling
/-!
# The calls of an assembled program

Assembly puts one engine into the table for each segment and one call into the graph, and counts
both with the same number.  So the calls of a program are those of the segments in their order, and
where the engines stand for the segments each call names the engine in its own place:

    HybridProgram.assemble g plan engines = .ok p →
      p.engineCalls = plan.segments.zipIdx.map (segmentCall g) ∧ …                        (counted)
    p.engineCalls[i]? = some call →
      ∃ e, p.engineOf call = .ok (i, e) ∧ …                                 (exists_engine_of_call)
-/

namespace HybridGraph

variable {A : Accelerator}

/-- The call that stands for a segment of a number: the node ids go on after those of the graph. -/
def segmentCall (g : Graph) (entry : Segment × Nat) : Node :=
  { Node.engineCall entry.2 entry.1.inputs entry.1.outputs with
    id := ⟨NodeId.nextAfter g.nextNode entry.2⟩ }

/-- The engine of a segment: it has its id, and its ports are the values at its boundary. -/
structure SegmentEngine.StandsFor (e : SegmentEngine A) (s : Segment) : Prop where
  segment : e.segment = s.id
  inputs : e.inputs.map EnginePort.value = s.inputs
  outputs : e.outputs.map EnginePort.value = s.outputs

theorem isEngineCall_segmentCall (g : Graph) (entry : Segment × Nat) :
    (segmentCall g entry).isEngineCall = true := rfl

theorem engineNumber_segmentCall (g : Graph) (entry : Segment × Nat) :
    HybridProgram.engineNumber (segmentCall g entry) = .ok entry.2 :=
  HybridProgram.engineNumber_engineCall _ _ _ _

namespace Assembly

/-- What holds once blocks have been added to the nodes of a graph without calls. -/
structure Counts (g : Graph) (engines : List (SegmentEngine A)) (blocks : List Block)
    (a : Assembly A) : Prop where
  frame : a.program.graph = { g with
    nodes := a.program.graph.nodes
    nextNode := NodeId.nextAfter g.nextNode a.program.engines.length }
  kept : ∀ node ∈ a.program.fallbackNodes, node ∈ g.nodes
  calls : a.program.engineCalls = (Plan.segments ⟨blocks⟩).zipIdx.map (segmentCall g)
  segments : a.program.engines.map SegmentEngine.segment =
    (Plan.segments ⟨blocks⟩).map Segment.id
  given : a.program.engines ⊆ engines ∧ a.waiting ⊆ engines

namespace Counts

variable {g : Graph} {engines : List (SegmentEngine A)} {blocks : List Block} {a : Assembly A}

theorem length_engines (h : a.Counts g engines blocks) :
    a.program.engines.length = (Plan.segments ⟨blocks⟩).length := by
  simpa using congrArg List.length h.segments

theorem nil (g : Graph) (engines : List (SegmentEngine A)) :
    (start g engines).Counts g engines [] where
  frame := rfl
  kept := by
    intro node hn
    cases hn
  calls := rfl
  segments := rfl
  given := ⟨List.nil_subset _, List.Subset.refl _⟩

theorem keep (h : a.Counts g engines blocks) {node : Node} (hn : node ∈ g.nodes)
    (hkind : node.isEngineCall = false) (reason : FallbackReason) :
    (a.keep node).Counts g engines (blocks ++ [.fallback node.id reason]) := by
  have hsegments : Plan.segments ⟨blocks ++ [.fallback node.id reason]⟩ =
      Plan.segments ⟨blocks⟩ := by
    rw [Plan.segments_append]
    exact List.append_nil _
  have hcalls : (a.keep node).program.engineCalls = a.program.engineCalls := by
    simp [HybridProgram.engineCalls, Assembly.keep, hkind]
  have hkept : (a.keep node).program.fallbackNodes = a.program.fallbackNodes ++ [node] := by
    simp [HybridProgram.fallbackNodes, Assembly.keep, hkind]
  refine ⟨?_, fun other ho => ?_, ?_, ?_, h.given⟩
  · show { a.program.graph with nodes := a.program.graph.nodes ++ [node] } = _
    rw [h.frame]
    rfl
  · rw [hkept, List.mem_append] at ho
    exact ho.elim (h.kept other) fun ho => List.mem_singleton.mp ho ▸ hn
  · rw [hcalls, hsegments, h.calls]
  · rw [hsegments]
    exact h.segments

theorem call (h : a.Counts g engines blocks) {s : Segment} {engine : SegmentEngine A}
    (hmem : engine ∈ a.waiting) (hsegment : engine.segment = s.id) :
    (a.call s engine).Counts g engines (blocks ++ [.segment s]) := by
  have hsegments : Plan.segments ⟨blocks ++ [.segment s]⟩ = Plan.segments ⟨blocks⟩ ++ [s] :=
    Plan.segments_append _ _
  have hnext : a.program.graph.nextNode = NodeId.nextAfter g.nextNode a.program.engines.length :=
    congrArg Graph.nextNode h.frame
  -- the number of the call and of the node both count the engines in the table
  have hcall : a.nextCall s = segmentCall g (s, (Plan.segments ⟨blocks⟩).length) := by
    rw [← h.length_engines, nextCall, hnext]
    rfl
  have hcalls : (a.call s engine).program.engineCalls =
      a.program.engineCalls ++ [a.nextCall s] := by
    simp [HybridProgram.engineCalls, Assembly.call, hcall, isEngineCall_segmentCall]
  have hkept : (a.call s engine).program.fallbackNodes = a.program.fallbackNodes := by
    simp [HybridProgram.fallbackNodes, Assembly.call, hcall, isEngineCall_segmentCall]
  refine ⟨?_, ?_, ?_, ?_, given_call h.given hmem⟩
  · show { a.program.graph with
      nodes := a.program.graph.nodes ++ [a.nextCall s]
      nextNode := NodeId.next a.program.graph.nextNode } = _
    rw [show (a.call s engine).program.engines.length = a.program.engines.length + 1 from
      List.length_append, NodeId.nextAfter, ← hnext]
    rw [h.frame]
    rfl
  · rw [hkept]
    exact h.kept
  · rw [hcalls, hsegments, h.calls, hcall, List.zipIdx_append, List.map_append]
    simp
  · rw [hsegments, List.map_append, ← h.segments, List.map_singleton, ← hsegment]
    exact List.map_append

/-- A call is that of a segment and numbered like an engine of the table. -/
theorem exists_segmentCall (h : a.Counts g engines blocks) {call : Node}
    (hcall : call ∈ a.program.engineCalls) :
    ∃ s number, number < a.program.engines.length ∧ call = segmentCall g (s, number) := by
  rw [h.calls] at hcall
  obtain ⟨⟨s, number⟩, hs, rfl⟩ := List.mem_map.mp hcall
  obtain ⟨hlt, -⟩ := List.getElem?_eq_some_iff.mp (List.mk_mem_zipIdx_iff_getElem?.mp hs)
  exact ⟨s, number, h.length_engines ▸ hlt, rfl⟩

end Counts

/-- What adding a block can do: keep a node of the graph, or call an engine that waits for the
segment. -/
theorem addBlock_cases {g : Graph} {b : Block} {a a' : Assembly A}
    (h : a.addBlock g b = .ok a') :
    (∃ node ∈ g.nodes, ∃ reason, b = .fallback node.id reason ∧ a' = a.keep node) ∨
      ∃ s, ∃ engine ∈ a.waiting, b = .segment s ∧ engine.segment = s.id ∧ a' = a.call s engine := by
  cases b with
  | fallback id reason =>
    rw [addBlock, keepNode_eq] at h
    cases hnode : g.node? id with
    | none =>
      rw [hnode] at h
      cases h
    | some node =>
      rw [hnode] at h
      obtain ⟨hn, rfl⟩ := Graph.mem_of_node? hnode
      exact .inl ⟨node, hn, reason, rfl, (Except.ok.inj h).symm⟩
  | segment s =>
    rw [addBlock, callSegment_eq] at h
    cases hfind : a.waiting.reverse.find? (·.segment = s.id) with
    | none =>
      rw [hfind] at h
      cases h
    | some engine =>
      rw [hfind] at h
      have hmem := List.mem_reverse.mp (List.mem_of_find?_eq_some hfind)
      have hsegment : engine.segment = s.id := by simpa using List.find?_some hfind
      exact .inr ⟨s, engine, hmem, rfl, hsegment, (Except.ok.inj h).symm⟩

/-- Blocks that were added one after another are counted. -/
theorem counts_of_foldlM {g : Graph} {engines : List (SegmentEngine A)} {blocks : List Block}
    {a : Assembly A} (hcalls : ∀ node ∈ g.nodes, node.kind ≠ .engineCall)
    (h : blocks.foldlM (addBlock g) (start g engines) = .ok a) : a.Counts g engines blocks := by
  induction blocks using List.reverseRecOn generalizing a with
  | nil =>
    obtain rfl := Outcome.pure_eq_ok.mp h
    exact .nil g engines
  | append_singleton blocks b ih =>
    obtain ⟨before, hbefore, hlast⟩ := Outcome.foldlM_append_eq_ok.mp h
    obtain ⟨after, hadd, hnil⟩ := Outcome.foldlM_cons_eq_ok.mp hlast
    obtain rfl := Outcome.pure_eq_ok.mp hnil
    have hcounts := ih hbefore
    obtain ⟨node, hn, reason, rfl, rfl⟩ | ⟨s, engine, hmem, rfl, hsegment, rfl⟩ :=
      addBlock_cases hadd
    · have hkind : node.isEngineCall = false := by simpa [Node.isEngineCall] using hcalls node hn
      exact hcounts.keep hn hkind reason
    · exact hcounts.call hmem hsegment

end Assembly

namespace HybridProgram

variable {g : Graph} {plan : Plan} {engines : List (SegmentEngine A)} {p : HybridProgram A}

/-- The calls of an assembled program are those of the segments, in their order and numbered like
the engines. -/
theorem counted (hcalls : ∀ node ∈ g.nodes, node.kind ≠ .engineCall)
    (h : assemble g plan engines = .ok p) :
    p.graph.verify = .ok () ∧ ∃ waiting, Assembly.Counts g engines plan.blocks ⟨p, waiting⟩ := by
  obtain ⟨a, hfold, hverify, rfl⟩ := assemble_eq_ok.mp h
  exact ⟨hverify, a.waiting, Assembly.counts_of_foldlM hcalls hfold⟩

/-- Where every engine stands for a segment of the plan, the calls and the engines of the program
are as many, and each call names the engine of its own place and has the values of its ports. -/
theorem exists_engine_of_call (hcalls : ∀ node ∈ g.nodes, node.kind ≠ .engineCall)
    (hstands : ∀ e ∈ engines, ∃ s ∈ plan.segments, e.StandsFor s)
    (hdistinct : (plan.segments.map Segment.id).Nodup) (h : assemble g plan engines = .ok p) :
    p.engineCalls.length = p.engines.length ∧ ∀ i call, p.engineCalls[i]? = some call →
      ∃ e, p.engineOf call = .ok (i, e) ∧ call.inputs = e.inputs.map EnginePort.value ∧
        call.outputs = e.outputs.map EnginePort.value := by
  obtain ⟨-, waiting, hcounts⟩ := counted hcalls h
  have hengines : p.engines.map SegmentEngine.segment = plan.segments.map Segment.id :=
    hcounts.segments
  have hnodes : p.engineCalls = plan.segments.zipIdx.map (segmentCall g) := hcounts.calls
  refine ⟨?_, fun i call hcall => ?_⟩
  · rw [hnodes, List.length_map, List.length_zipIdx]
    exact hcounts.length_engines.symm
  rw [hnodes, List.getElem?_map, List.getElem?_zipIdx, Nat.zero_add] at hcall
  obtain ⟨_, hentry, rfl⟩ := Option.map_eq_some_iff.mp hcall
  obtain ⟨s, hs, rfl⟩ := Option.map_eq_some_iff.mp hentry
  -- the engine in the place of the segment has its id, so it is the one that stands for it
  have hplace := congrArg (·[i]?) hengines
  rw [List.getElem?_map, List.getElem?_map, hs] at hplace
  obtain ⟨e, he, hid⟩ := Option.map_eq_some_iff.mp hplace
  obtain ⟨s', hs', hstands'⟩ := hstands e (hcounts.given.1 (List.mem_of_getElem? he))
  obtain rfl := List.inj_on_of_nodup_map hdistinct hs' (List.mem_of_getElem? hs)
    (hstands'.segment.symm.trans hid)
  exact ⟨e, engineOf_eq_ok.mpr ⟨engineNumber_segmentCall g (s', i), he⟩, hstands'.inputs.symm,
    hstands'.outputs.symm⟩

end HybridProgram

end HybridGraph
