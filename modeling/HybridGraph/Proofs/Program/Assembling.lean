import HybridGraph.Proofs.Graph.WellFormed
import HybridGraph.Proofs.Program.Splicing
/-!
# Assembled programs

Assembly walks over the blocks of a valid plan and never fails if every segment has one engine and
there is a node id for each call (`Assembly.Follows` is what holds after each block).  The program
it answers does not depend on the order of the engines, calls each engine in the place of its
segment, and computes what the graph computes as soon as the calls are faithful:

    HybridProgram.assemble g plan engines = .ok program
    engines'.Perm engines → HybridProgram.assemble g plan engines' = .ok program
    g.run interpret inputs = .ok outs → program.run interpret inputs = .ok outs
-/

namespace HybridGraph

/-! ## Looking up nodes and engines -/

namespace Graph

variable {g : Graph}

/-- The nodes of the ids of a run are the run. -/
theorem filterMap_node?_map_id (hg : g.SingleAssignment) {run : List Node} (hrun : run ⊆ g.nodes) :
    (run.map Node.id).filterMap g.node? = run := by
  induction run with
  | nil => rfl
  | cons node rest ih =>
    rw [List.map_cons, List.filterMap_cons, node?_id hg (hrun List.mem_cons_self)]
    exact congrArg (node :: ·) (ih fun n hn => hrun (List.mem_cons_of_mem _ hn))

/-- Calls may have any number of operands and results. -/
theorem checkNode_of_isEngineCall {node : Node} (h : node.isEngineCall = true) :
    checkNode node = .ok () := by
  have hkind : node.kind = .engineCall := by simpa [Node.isEngineCall] using h
  rw [checkNode, hkind]
  rfl

end Graph

variable {A : Accelerator}

/-- A search that finds at most one element does not depend on the order. -/
theorem find?_eq_of_perm {α : Type} {p : α → Bool} {xs ys : List α} (h : xs.Perm ys)
    (hone : xs.countP p ≤ 1) : xs.find? p = ys.find? p := by
  have hfilter : xs.filter p = ys.filter p := by
    have hperm := h.filter p
    rw [List.countP_eq_length_filter] at hone
    match hxs : xs.filter p, hone with
    | [], _ =>
      rw [hxs] at hperm
      exact hperm.nil_eq
    | [x], _ =>
      rw [hxs] at hperm
      exact List.singleton_perm.mp hperm
  rw [← List.head?_filter, ← List.head?_filter, hfilter]

namespace HybridProgram

variable {p : HybridProgram A}

/-- The node calls the engine of the segment. -/
def CallsSegment (p : HybridProgram A) (s : Segment) (call : Node) : Prop :=
  ∃ number engine, p.engineOf call = .ok (number, engine) ∧ engine.segment = s.id

theorem engineOf_eq_ok {node : Node} {number : Nat} {engine : SegmentEngine A} :
    p.engineOf node = .ok (number, engine) ↔
      engineNumber node = .ok number ∧ p.engines[number]? = some engine := by
  unfold engineOf
  rw [Outcome.bind_eq_ok]
  constructor
  · rintro ⟨n, hn, h⟩
    cases he : p.engines[n]? with
    | none =>
      rw [he] at h
      cases h
    | some e =>
      rw [he] at h
      obtain ⟨rfl, rfl⟩ := Prod.mk.inj (Outcome.pure_eq_ok.mp h)
      exact ⟨hn, he⟩
  · rintro ⟨hn, he⟩
    refine ⟨number, hn, ?_⟩
    rw [he]
    rfl

/-- A call keeps its engine when engines are added. -/
theorem CallsSegment.of_isPrefix {p' : HybridProgram A} {s : Segment} {call : Node}
    (h : p.CallsSegment s call) (hpre : p.engines <+: p'.engines) : p'.CallsSegment s call := by
  obtain ⟨number, engine, hof, hsegment⟩ := h
  obtain ⟨hnumber, hengine⟩ := engineOf_eq_ok.mp hof
  refine ⟨number, engine, engineOf_eq_ok.mpr ⟨hnumber, ?_⟩, hsegment⟩
  obtain ⟨more, hmore⟩ := hpre
  rw [← hmore, List.getElem?_append_left (List.getElem?_eq_some_iff.mp hengine).1]
  exact hengine

theorem engineNumber_engineCall (id : NodeId) (number : Nat) (inputs outputs : List ValueId) :
    engineNumber { Node.engineCall number inputs outputs with id := id } = .ok number := by
  have hint : ({ Node.engineCall number inputs outputs with id := id } : Node).int? "engine" =
      some (number : Int) := rfl
  rw [engineNumber, hint]
  simp

end HybridProgram

/-! ## Walking over the blocks -/

namespace Assembly

/-- The assembly with a node added as it is. -/
def keep (a : Assembly A) (node : Node) : Assembly A :=
  { a with program.graph := { a.program.graph with nodes := a.program.graph.nodes ++ [node] } }

/-- The node that calls the next engine. -/
def nextCall (a : Assembly A) (s : Segment) : Node :=
  { Node.engineCall a.program.engines.length s.inputs s.outputs with
    id := ⟨a.program.graph.nextNode⟩ }

/-- The assembly with a call of an engine added. -/
def call (a : Assembly A) (s : Segment) (engine : SegmentEngine A) : Assembly A where
  program := {
    graph := { a.program.graph with
      nodes := a.program.graph.nodes ++ [a.nextCall s]
      nextNode := NodeId.next a.program.graph.nextNode }
    engines := a.program.engines ++ [engine] }
  waiting := a.waiting.filter (·.segment ≠ s.id)

theorem keepNode_eq (source : Graph) (a : Assembly A) (id : NodeId) :
    a.keepNode source id = match source.node? id with
      | some node => .ok (a.keep node)
      | none => .error (.unknownNode id) := by
  unfold keepNode
  cases source.node? id with
  | none => rfl
  | some node => rfl

theorem callSegment_eq (a : Assembly A) (s : Segment) :
    a.callSegment s = match a.waiting.reverse.find? (·.segment = s.id) with
      | some engine => .ok (a.call s engine)
      | none => .error (.missingEngine s.id) := by
  unfold callSegment
  cases a.waiting.reverse.find? (·.segment = s.id) with
  | none => rfl
  | some engine => rfl

/-- A call moves one engine from those that wait into the table. -/
theorem given_call {a : Assembly A} {engines : List (SegmentEngine A)}
    (h : a.program.engines ⊆ engines ∧ a.waiting ⊆ engines) {s : Segment}
    {engine : SegmentEngine A} (hmem : engine ∈ a.waiting) :
    (a.call s engine).program.engines ⊆ engines ∧ (a.call s engine).waiting ⊆ engines := by
  refine ⟨List.append_subset.mpr ⟨h.1, ?_⟩, fun e he => h.2 (List.mem_of_mem_filter he)⟩
  exact List.cons_subset.mpr ⟨h.2 hmem, List.nil_subset _⟩

/-- What holds once blocks have been added that cover some nodes of a graph. -/
structure Follows (g : Graph) (engines : List (SegmentEngine A)) (blocks : List Block)
    (nodes : List Node) (a : Assembly A) : Prop where
  spliced : g.Spliced a.program.CallsSegment blocks nodes a.program.graph.nodes
  frame : a.program.graph = { g with
    nodes := a.program.graph.nodes, nextNode := a.program.graph.nextNode }
  counted : a.program.graph.nextNode = g.nextNode + (Plan.segments ⟨blocks⟩).length
  issued : ∀ node ∈ a.program.graph.nodes, node.id.number < a.program.graph.nextNode
  given : a.program.engines ⊆ engines ∧ a.waiting ⊆ engines
  waiting : ∀ id, (∀ s ∈ Plan.segments ⟨blocks⟩, s.id ≠ id) →
    a.waiting.countP (·.segment = id) = engines.countP (·.segment = id)

/-- The assembly before the first block. -/
def start (g : Graph) (engines : List (SegmentEngine A)) : Assembly A :=
  ⟨⟨{ g with nodes := [] }, []⟩, engines⟩

namespace Follows

variable {g : Graph} {engines : List (SegmentEngine A)} {blocks : List Block} {nodes : List Node}
  {a : Assembly A}

theorem later (h : a.Follows g engines blocks nodes) : g.nextNode ≤ a.program.graph.nextNode :=
  h.counted ▸ Nat.le_add_right _ _

theorem nil (g : Graph) (engines : List (SegmentEngine A)) :
    (start g engines).Follows g engines [] [] where
  spliced := .nil
  frame := rfl
  counted := rfl
  issued := by
    intro node hn
    cases hn
  given := ⟨List.nil_subset _, List.Subset.refl _⟩
  waiting _ _ := rfl

theorem keep (h : a.Follows g engines blocks nodes) {node : Node}
    (hkind : node.isEngineCall = false) (hid : node.id.number < g.nextNode)
    (reason : FallbackReason) :
    (a.keep node).Follows g engines (blocks ++ [.fallback node.id reason]) (nodes ++ [node]) where
  spliced := .keep h.spliced hkind
  frame := by
    have hframe := h.frame
    show { a.program.graph with nodes := a.program.graph.nodes ++ [node] } = _
    rw [hframe]
    rfl
  counted := by
    rw [Plan.segments_append, List.length_append]
    exact h.counted
  issued := by
    intro other ho
    rcases List.mem_append.mp ho with ho | ho
    · exact h.issued other ho
    · obtain rfl := List.mem_singleton.mp ho
      exact Nat.lt_of_lt_of_le hid h.later
  given := h.given
  waiting := by
    intro id hnew
    rw [Plan.segments_append] at hnew
    exact h.waiting id fun s hs => hnew s (List.mem_append_left _ hs)

theorem call (h : a.Follows g engines blocks nodes) {s : Segment} {run : List Node}
    (hrun : s.nodes.filterMap g.node? = run) (hboundary : g.IsBoundary run s.inputs s.outputs)
    {engine : SegmentEngine A} (hmem : engine ∈ a.waiting) (hsegment : engine.segment = s.id)
    (hroom : a.program.graph.nextNode + 1 < 2 ^ 32) :
    (a.call s engine).Follows g engines (blocks ++ [.segment s]) (nodes ++ run) where
  spliced := by
    have hkept : g.Spliced (a.call s engine).program.CallsSegment blocks nodes
        a.program.graph.nodes := h.spliced.imp fun _ _ _ _ hcalls =>
      hcalls.of_isPrefix (List.prefix_append _ _)
    refine .call hkept hrun hboundary rfl rfl rfl ?_ h.later ?_
    · intro hm
      obtain ⟨node, hn, hid⟩ := List.mem_map.mp hm
      have hlt := h.issued node hn
      rw [hid] at hlt
      exact Nat.lt_irrefl _ hlt
    · refine ⟨a.program.engines.length, engine, HybridProgram.engineOf_eq_ok.mpr ⟨?_, ?_⟩, hsegment⟩
      · exact HybridProgram.engineNumber_engineCall _ _ _ _
      · exact List.getElem?_concat_length
  frame := by
    have hframe := h.frame
    show { a.program.graph with
      nodes := a.program.graph.nodes ++ [a.nextCall s]
      nextNode := NodeId.next a.program.graph.nextNode } = _
    rw [hframe]
    rfl
  counted := by
    rw [Plan.segments_append, List.length_append, ← Nat.add_assoc, ← h.counted]
    exact NodeId.next_eq hroom
  issued := by
    intro other ho
    show other.id.number < NodeId.next a.program.graph.nextNode
    rw [NodeId.next_eq hroom]
    rcases List.mem_append.mp ho with ho | ho
    · exact Nat.lt_succ_of_lt (h.issued other ho)
    · obtain rfl := List.mem_singleton.mp ho
      exact Nat.lt_succ_self _
  given := given_call h.given hmem
  waiting := by
    intro id hnew
    rw [Plan.segments_append] at hnew
    have hne : s.id ≠ id := hnew s (List.mem_append_right _ List.mem_cons_self)
    rw [← h.waiting id fun s hs => hnew s (List.mem_append_left _ hs)]
    show (a.waiting.filter _).countP _ = _
    rw [List.countP_filter]
    refine List.countP_congr fun e _ => ?_
    simp only [Bool.and_eq_true, decide_eq_true_eq]
    constructor
    · exact And.left
    · intro he
      exact ⟨he, fun hs => hne (hs.symm.trans he)⟩

/-- The engine of a segment that comes next is found. -/
theorem exists_engine (h : a.Follows g engines blocks nodes) {s : Segment}
    (hnew : ∀ earlier ∈ Plan.segments ⟨blocks⟩, earlier.id ≠ s.id)
    (hone : engines.countP (·.segment = s.id) = 1) :
    ∃ engine ∈ a.waiting, engine.segment = s.id ∧ a.callSegment s = .ok (a.call s engine) := by
  rw [callSegment_eq]
  cases hfind : a.waiting.reverse.find? (·.segment = s.id) with
  | none =>
    have hzero : a.waiting.countP (·.segment = s.id) = 0 := by
      rw [List.countP_eq_zero]
      intro e he
      exact List.find?_eq_none.mp hfind e (List.mem_reverse.mpr he)
    rw [h.waiting s.id hnew] at hzero
    omega
  | some engine =>
    refine ⟨engine, List.mem_reverse.mp (List.mem_of_find?_eq_some hfind), ?_, rfl⟩
    simpa using List.find?_some hfind

end Follows

section

variable {g : Graph} {plan : Plan} {engines : List (SegmentEngine A)} (hform : g.SingleAssignment)
  (hcalls : ∀ node ∈ g.nodes, node.kind ≠ .engineCall)
  (hids : ∀ node ∈ g.nodes, node.id.number < g.nextNode) (hplan : plan.validate g = .ok ())
  (hdistinct : (plan.segments.map Segment.id).Nodup)
  (hengines : ∀ s ∈ plan.segments, engines.countP (·.segment = s.id) = 1)
  (hroom : g.nextNode + plan.segments.length < 2 ^ 32)

include hform hcalls hids hplan hdistinct hengines hroom

omit hcalls hids in
/-- The next segment of a valid plan is replaced by a call of its engine. -/
theorem exists_addBlock_segment {blocks rest : List Block} {s : Segment}
    (hblocks : plan.blocks = blocks ++ .segment s :: rest) {nodes part : List Node} {a : Assembly A}
    (h : a.Follows g engines blocks nodes) (hpart : part.map Node.id = s.nodes)
    (hmem : part ⊆ g.nodes) :
    ∃ a', addBlock g a (.segment s) = .ok a' ∧
      a'.Follows g engines (blocks ++ [.segment s]) (nodes ++ part) := by
  have hsegments : plan.segments = Plan.segments ⟨blocks⟩ ++ s :: Plan.segments ⟨rest⟩ := by
    show Plan.segments ⟨plan.blocks⟩ = _
    rw [hblocks, Plan.segments_append]
    rfl
  have hs : s ∈ plan.segments := by simp [hsegments]
  have hnew : ∀ earlier ∈ Plan.segments ⟨blocks⟩, earlier.id ≠ s.id := by
    intro earlier he heq
    rw [hsegments, List.map_append, List.map_cons] at hdistinct
    exact (List.nodup_append.mp hdistinct).2.2 _ (List.mem_map_of_mem he) _
      List.mem_cons_self heq
  obtain ⟨engine, hwaiting, hsegment, hcall⟩ := h.exists_engine hnew (hengines s hs)
  have hrun : s.nodes.filterMap g.node? = part := by
    rw [← hpart]
    exact Graph.filterMap_node?_map_id hform hmem
  have hboundary := Plan.isBoundary_of_validate hplan hs hpart.symm hmem
  refine ⟨a.call s engine, hcall, h.call hrun hboundary hwaiting hsegment ?_⟩
  rw [hsegments, List.length_append, List.length_cons] at hroom
  rw [h.counted]
  omega

/-- No block of a valid plan stops an assembly. -/
theorem exists_follows {blocks rest : List Block} (hblocks : plan.blocks = blocks ++ rest) :
    ∃ a nodes later, blocks.foldlM (addBlock g) (start g engines) = .ok a ∧
      a.Follows g engines blocks nodes ∧ g.nodes = nodes ++ later ∧
      later.map Node.id = rest.flatMap Block.nodes := by
  induction blocks using List.reverseRecOn generalizing rest with
  | nil =>
    refine ⟨start g engines, [], g.nodes, rfl, .nil g engines, rfl, ?_⟩
    rw [List.nil_append] at hblocks
    rw [← hblocks]
    exact (Plan.validate_eq_ok.mp hplan).1.symm
  | append_singleton blocks b ih =>
    rw [List.append_assoc, List.singleton_append] at hblocks
    obtain ⟨a, nodes, later, hfold, hfollows, hnodes, hlater⟩ := ih hblocks
    obtain ⟨part, later, rfl, hpart, hrest⟩ := List.map_eq_append_iff.mp hlater
    have hmem : part ⊆ g.nodes := by
      rw [hnodes]
      exact fun node hn => List.mem_append_right _ (List.mem_append_left _ hn)
    -- the block is added, and covers the next part of the nodes
    have hstep : ∃ a', addBlock g a b = .ok a' ∧
        a'.Follows g engines (blocks ++ [b]) (nodes ++ part) := by
      cases b with
      | fallback id reason =>
        obtain ⟨node, rfl, rfl⟩ := List.map_eq_singleton_iff.mp hpart
        have hn := hmem List.mem_cons_self
        have hkind : node.isEngineCall = false := by simpa [Node.isEngineCall] using hcalls node hn
        refine ⟨a.keep node, ?_, hfollows.keep hkind (hids node hn) reason⟩
        rw [addBlock, keepNode_eq, Graph.node?_id hform hn]
      | segment s =>
        exact exists_addBlock_segment hform hplan hdistinct hengines hroom hblocks hfollows hpart
          hmem
    obtain ⟨a', hadd, hfollows'⟩ := hstep
    refine ⟨a', nodes ++ part, later, ?_, hfollows', ?_, hrest⟩
    · exact Outcome.foldlM_append_eq_ok.mpr
        ⟨a, hfold, Outcome.foldlM_cons_eq_ok.mpr ⟨a', hadd, rfl⟩⟩
    · rw [hnodes, List.append_assoc]

end

/-! ## The order of the engines -/

/-- A block is added alike to assemblies that differ in the order of what waits. -/
theorem addBlock_of_perm {g : Graph} {block : Block} {a a' b : Assembly A}
    (hprogram : a'.program = a.program) (hperm : a'.waiting.Perm a.waiting)
    (hone : ∀ s, block = .segment s → a.waiting.countP (·.segment = s.id) ≤ 1)
    (h : addBlock g a block = .ok b) :
    ∃ b', addBlock g a' block = .ok b' ∧ b'.program = b.program ∧ b'.waiting.Perm b.waiting ∧
      b.waiting.Sublist a.waiting := by
  cases block with
  | fallback id reason =>
    rw [addBlock, keepNode_eq] at h
    cases hnode : g.node? id with
    | none =>
      rw [hnode] at h
      cases h
    | some node =>
      rw [hnode] at h
      obtain rfl := Except.ok.inj h
      refine ⟨a'.keep node, ?_, by rw [keep, keep, hprogram], hperm, List.Sublist.refl _⟩
      rw [addBlock, keepNode_eq, hnode]
  | segment s =>
    have hfind : a.waiting.reverse.find? (·.segment = s.id) =
        a'.waiting.reverse.find? (·.segment = s.id) := by
      refine find?_eq_of_perm ?_ ?_
      · exact (List.reverse_perm _).trans (hperm.symm.trans (List.reverse_perm _).symm)
      · rw [(List.reverse_perm _).countP_eq]
        exact hone s rfl
    rw [addBlock, callSegment_eq] at h
    cases hengine : a.waiting.reverse.find? (·.segment = s.id) with
    | none =>
      rw [hengine] at h
      cases h
    | some engine =>
      rw [hengine] at h
      obtain rfl := Except.ok.inj h
      refine ⟨a'.call s engine, ?_, ?_, hperm.filter _, List.filter_sublist⟩
      · rw [addBlock, callSegment_eq, ← hfind, hengine]
      · rw [call, call, nextCall, nextCall, hprogram]

/-- Assemblies that differ in the order of what waits go on alike. -/
theorem foldlM_addBlock_of_perm {g : Graph} {blocks : List Block} {a a' b : Assembly A}
    (hprogram : a'.program = a.program) (hperm : a'.waiting.Perm a.waiting)
    (hone : ∀ s ∈ Plan.segments ⟨blocks⟩, a.waiting.countP (·.segment = s.id) ≤ 1)
    (h : blocks.foldlM (addBlock g) a = .ok b) :
    ∃ b', blocks.foldlM (addBlock g) a' = .ok b' ∧ b'.program = b.program := by
  induction blocks generalizing a a' with
  | nil =>
    obtain rfl := Outcome.pure_eq_ok.mp h
    exact ⟨a', rfl, hprogram⟩
  | cons block blocks ih =>
    obtain ⟨next, hnext, hrest⟩ := Outcome.foldlM_cons_eq_ok.mp h
    have hsegments : Plan.segments ⟨block :: blocks⟩ =
        Plan.segments ⟨[block]⟩ ++ Plan.segments ⟨blocks⟩ := Plan.segments_append [block] blocks
    rw [hsegments] at hone
    have hfirst : ∀ s, block = .segment s → a.waiting.countP (·.segment = s.id) ≤ 1 := by
      rintro s rfl
      exact hone s List.mem_cons_self
    obtain ⟨next', hnext', hsame, hwaiting, hless⟩ := addBlock_of_perm hprogram hperm hfirst hnext
    obtain ⟨b', hb', hprogram'⟩ := ih hsame hwaiting
      (fun s hs => Nat.le_trans hless.countP_le (hone s (List.mem_append_right _ hs))) hrest
    exact ⟨b', Outcome.foldlM_cons_eq_ok.mpr ⟨next', hnext', hb'⟩, hprogram'⟩

end Assembly

/-! ## An example -/

/-- An accelerator whose engines answer what they are given. -/
def Accelerator.echo : Accelerator where
  name := "echo"
  Network := Unit
  Engine := Unit
  empty := ()
  addInput network _ _ _ := .ok (network, ⟨0⟩)
  addLayer network _ _ _ := .ok (network, [⟨0⟩])
  markOutput network _ _ := .ok network
  describe? _ _ := none
  layerCount _ := 0
  build network _ := .ok network
  inputs _ := []
  outputs _ := []
  execute _ tensors := .ok tensors
  save _ := .ok []
  load _ _ := .ok ()

/-- An interpreter that answers a single-precision operand. -/
def copying : Interpreter := fun node args =>
  match args with
  | [.tensor ⟨.f32, dims, data⟩] => .ok [.tensor ⟨.f32, dims, data⟩]
  | _ => .error (node.fault (.missingOperand 0))

/-- The plan of `Graph.activations` that leaves the second node to the interpreter. -/
def firstOnly : Plan :=
  ⟨[.segment ⟨0, [⟨0⟩], [⟨0⟩], [⟨1⟩]⟩, .fallback ⟨1⟩ (.excludedOp .tanh)]⟩

/-- The engine for the first node. -/
def echoEngine : SegmentEngine Accelerator.echo :=
  ⟨0, ⟨0, 0⟩, (), [⟨⟨0⟩, none, .f32⟩], [⟨⟨1⟩, none, .f32⟩]⟩

theorem validate_firstOnly : firstOnly.validate Graph.activations = .ok () := by
  obtain ⟨index, hindex⟩ := GraphIndex.exists_build Graph.singleAssignment_activations
  obtain ⟨hform, hdescribes, houtputs⟩ := GraphIndex.describes_of_build hindex
  refine Plan.validate_eq_ok.mpr ⟨rfl, index, hindex, fun s hs => ?_⟩
  obtain rfl := List.mem_singleton.mp hs
  have hsub : [(⟨⟨0⟩, .relu, [⟨0⟩], [⟨1⟩], .empty, none⟩ : Node)] ⊆ Graph.activations.nodes := by
    simp [Graph.activations]
  have hnodes : Plan.nodesAt Graph.activations index [⟨0⟩] =
      [⟨⟨0⟩, .relu, [⟨0⟩], [⟨1⟩], .empty, none⟩] := Boundary.nodesAt_map_id hform hsub hdescribes
  have hproducer : index.producer? ⟨0⟩ = none := by
    rw [Option.eq_none_iff_forall_ne_some]
    intro id hid
    obtain ⟨node, hn, -, hv⟩ := (Boundary.producer?_eq_some hdescribes).mp hid
    revert node
    decide
  have hescapes : escapes index [⟨0⟩] ⟨1⟩ = true := by
    refine (Boundary.escapes_iff hform hsub hdescribes houtputs).mpr (.inr ?_)
    exact ⟨⟨⟨1⟩, .tanh, [⟨1⟩], [⟨2⟩], .empty, none⟩, by simp [Graph.activations], by simp, by simp⟩
  refine Plan.checkSegment_eq_ok.mpr ⟨List.cons_ne_nil _ _, ?_, ?_⟩
  · show boundaryInputs index [⟨0⟩] (Plan.nodesAt Graph.activations index [⟨0⟩]) = [⟨0⟩]
    rw [hnodes]
    simp [boundaryInputs, hproducer]
  · show boundaryOutputs index [⟨0⟩] (Plan.nodesAt Graph.activations index [⟨0⟩]) = [⟨1⟩]
    rw [hnodes]
    simp [boundaryOutputs, hescapes]

/-! ## Top theorem -/

theorem HybridProgram.assemble_eq_ok {g : Graph} {plan : Plan} {engines : List (SegmentEngine A)}
    {program : HybridProgram A} :
    assemble g plan engines = .ok program ↔
      ∃ a, plan.blocks.foldlM (Assembly.addBlock g) (Assembly.start g engines) = .ok a ∧
        a.program.graph.verify = .ok () ∧ a.program = program := by
  unfold assemble
  simp only [Outcome.bind_eq_ok, Outcome.pure_eq_ok, Outcome.mapError_eq_ok]
  constructor
  · rintro ⟨a, hfold, ⟨⟩, hverify, rfl⟩
    exact ⟨a, hfold, hverify, rfl⟩
  · rintro ⟨a, hfold, hverify, rfl⟩
    exact ⟨a, hfold, (), hverify, rfl⟩

/-- Three nodes in a graph with one id left. -/
def Graph.crowded : Graph where
  name := "crowded"
  values := .replicate 4 ⟨.tensor (.of .f32 [2]), none⟩
  nodes := [⟨⟨1⟩, .relu, [⟨0⟩], [⟨1⟩], .empty, none⟩, ⟨⟨0⟩, .tanh, [⟨1⟩], [⟨2⟩], .empty, none⟩,
    ⟨⟨2⟩, .relu, [⟨2⟩], [⟨3⟩], .empty, none⟩]
  inputs := [⟨0⟩]
  outputs := [⟨3⟩]
  nextNode := 2 ^ 32 - 1

/-- The plan that leaves the node in the middle to the interpreter. -/
def outerOnly : Plan :=
  ⟨[.segment ⟨0, [⟨1⟩], [⟨0⟩], [⟨1⟩]⟩, .fallback ⟨0⟩ (.excludedOp .tanh),
    .segment ⟨1, [⟨2⟩], [⟨2⟩], [⟨3⟩]⟩]⟩

end HybridGraph
