import HybridGraph.Engine.Reference
import HybridGraph.Proofs.Partition.Plans
/-!
# Partitions are covers

Every plan that a partition answers is valid: it covers the graph, its segments are numbered in
order, long enough, never side by side, and have the boundaries of their nodes (`Plan.Covers`).
Full compilation answers the plan that is made without it if nothing falls back there, and
otherwise lists what falls back there:

    g.partition r options shapes? = .ok plan → plan.Covers g options.minBlockSize
    (g.violations d).map Violation.entry = (t.plan d).fallbacks            (violations_eq_fallbacks)

Partitions take all they can.  Without full compilation a graph with an index has a partition;
engines take the greatest admissible set of nodes, and every way to apply the rules of demotion
until none fires ends there:

    IsGreatest (g.admissibleSets r options shapes?) plan.engineNodes
    (g.Reaches r options shapes? S ∧ ∀ id ∈ S, ¬ g.Demotes options shapes? S id) ↔
      S = plan.engineNodes
-/

namespace HybridGraph

/-! ## Covers -/

/-- Whether a block is a segment. -/
def Block.isSegment : Block → Bool
  | .segment _ => true
  | .fallback .. => false

/-- Two blocks that may stand side by side: not two segments. -/
def Block.Separate (a b : Block) : Prop := a.isSegment = false ∨ b.isSegment = false

/-- The blocks that stay under the interpreter, with their reasons. -/
def Plan.fallbacks (p : Plan) : List (NodeId × FallbackReason) :=
  p.blocks.filterMap fun
    | .segment _ => none
    | .fallback node reason => some (node, reason)

/-- The node of a violation, with its reason. -/
def Violation.entry (v : Violation) : NodeId × FallbackReason := (v.node, v.reason)

/-- A plan is a valid cover of a graph by segments of at least a length. -/
structure Plan.Covers (p : Plan) (g : Graph) (min : Nat) : Prop where
  valid : p.validate g = .ok ()
  once : p.nodes = g.nodeIds ∧ p.nodes.Nodup
  boundaries : ∀ s ∈ p.segments, ∃ run, run <:+: g.nodes ∧ s.nodes = run.map Node.id ∧
    g.IsBoundary run s.inputs s.outputs
  numbered : p.segments.map Segment.id = List.range p.segments.length
  apart : p.blocks.IsChain Block.Separate
  length : ∀ s ∈ p.segments, max min 1 ≤ s.nodes.length

namespace Terrain

variable {A : Accelerator} {t : Terrain} {r : Registry A} {options : PartitionOptions}
  {d : Demoted}

/-! ## The blocks of a plan -/

/-- The nodes of the blocks are those of the stretches. -/
theorem nodes_blocks (d : Demoted) (id : Nat) (parts : List Stretch) :
    (t.blocks d id parts).flatMap Block.nodes = (parts.flatMap Stretch.nodes).map Node.id := by
  induction parts generalizing id with
  | nil => rfl
  | cons part parts ih =>
    cases part with
    | single node =>
      show node.id :: (t.blocks d id parts).flatMap Block.nodes = _
      rw [ih]
      rfl
    | run nodes =>
      show nodes.map Node.id ++ (t.blocks d (id + 1) parts).flatMap Block.nodes = _
      rw [ih, ← List.map_append]
      rfl

theorem isSegment_head?_blocks {id : Nat} {parts : List Stretch} {b : Block}
    (hb : b ∈ (t.blocks d id parts).head?) :
    ∃ part ∈ parts.head?, b.isSegment = part.run?.isSome := by
  cases parts with
  | nil => cases hb
  | cons part parts =>
    refine ⟨part, rfl, ?_⟩
    cases part with
    | single node =>
      obtain rfl := Option.some.inj hb
      rfl
    | run nodes =>
      obtain rfl := Option.some.inj hb
      rfl

/-- Segments are no more side by side than runs are. -/
theorem isChain_blocks {id : Nat} {parts : List Stretch} (h : parts.IsChain Stretch.Separate) :
    (t.blocks d id parts).IsChain Block.Separate := by
  induction parts generalizing id with
  | nil => exact .nil
  | cons part parts ih =>
    obtain ⟨hhead, hrest⟩ := List.isChain_cons.mp h
    cases part with
    | single node =>
      exact List.isChain_cons.mpr ⟨fun b _ => .inl rfl, ih hrest⟩
    | run nodes =>
      refine List.isChain_cons.mpr ⟨fun b hb => .inr ?_, ih hrest⟩
      obtain ⟨next, hnext, hsame⟩ := isSegment_head?_blocks hb
      have hnone : next.run? = none := (hhead next hnext).resolve_left (by simp [Stretch.run?])
      rw [hsame, hnone]
      rfl

/-- A plan lists what falls back with the reasons that demotion gave. -/
theorem fallbacks_blocks {id : Nat} {parts : List Stretch}
    (hparts : ∀ part ∈ parts, part.Fits fun node => !d.contains node.id) :
    Plan.fallbacks ⟨t.blocks d id parts⟩ = (parts.flatMap Stretch.nodes).filterMap
      fun node => (d.lookup node.id).map fun reason => (node.id, reason) := by
  induction parts generalizing id with
  | nil => rfl
  | cons part parts ih =>
    obtain ⟨hpart, hrest⟩ := List.forall_mem_cons.mp hparts
    rw [List.flatMap_cons, List.filterMap_append]
    cases part with
    | single node =>
      have hfits : (!d.contains node.id) = false := hpart
      have hin : d.contains node.id = true := by simpa using hfits
      obtain ⟨reason, hreason⟩ := Option.isSome_iff_exists.mp hin
      show (node.id, (d.lookup node.id).getD _) :: Plan.fallbacks ⟨t.blocks d id parts⟩ = _
      rw [ih hrest, hreason]
      simp [Stretch.nodes, hreason]
    | run nodes =>
      have hnone : nodes.filterMap (fun node => (d.lookup node.id).map fun reason =>
          (node.id, reason)) = [] := by
        rw [List.filterMap_eq_nil_iff]
        intro node hn
        have hfits := hpart.2 node hn
        have hnot : (d.lookup node.id).isSome = false := by simpa [Demoted.contains] using hfits
        rw [Option.isSome_eq_false_iff, Option.isNone_iff_eq_none] at hnot
        rw [hnot]
        rfl
      show Plan.fallbacks ⟨t.blocks d (id + 1) parts⟩ = _
      rw [ih hrest]
      show _ = nodes.filterMap _ ++ _
      rw [hnone, List.nil_append]

/-! ## The plan of settled demotion -/

theorem exists_run_of_mem_segments (hs : t.Sound) {s : Segment} (h : s ∈ (t.plan d).segments) :
    ∃ id run, IsRun (·.id ∈ t.kept d) t.graph.nodes run ∧ s = t.segment id run := by
  rw [segments_plan] at h
  obtain ⟨⟨run, id⟩, hmem, rfl⟩ := List.mem_map.mp h
  exact ⟨id, run, (mem_runs hs).mp (List.fst_mem_of_mem_zipIdx hmem), rfl⟩

theorem validate_plan (hs : t.Sound) (hindex : GraphIndex.build t.graph = .ok t.index)
    (d : Demoted) : (t.plan d).validate t.graph = .ok () := by
  refine Plan.validate_eq_ok.mpr ⟨?_, t.index, hindex, fun s hmem => ?_⟩
  · show (t.blocks d 0 _).flatMap Block.nodes = _
    rw [nodes_blocks, flatMap_stretches]
    rfl
  · obtain ⟨id, run, hrun, rfl⟩ := exists_run_of_mem_segments hs hmem
    have hnodes := Boundary.nodesAt_map_id hs.form hrun.subset hs.describes
    refine Plan.checkSegment_eq_ok.mpr ⟨fun h => hrun.nonempty (List.map_eq_nil_iff.mp h), ?_, ?_⟩
    · show boundaryInputs t.index _ (Plan.nodesAt t.graph t.index (run.map Node.id)) = _
      rw [hnodes]
      rfl
    · show boundaryOutputs t.index _ (Plan.nodesAt t.graph t.index (run.map Node.id)) = _
      rw [hnodes]
      rfl

/-- The plan of settled demotion is a valid cover. -/
theorem Settled.covers (h : t.Settled r options d)
    (hindex : GraphIndex.build t.graph = .ok t.index) :
    (t.plan d).Covers t.graph options.minBlockSize where
  valid := validate_plan h.sound hindex d
  once := by
    have hnodes := (Plan.validate_eq_ok.mp (validate_plan h.sound hindex d)).1
    refine ⟨hnodes, ?_⟩
    rw [hnodes]
    exact h.sound.form.nodes.nodup
  boundaries := by
    intro s hmem
    obtain ⟨id, run, hrun, rfl⟩ := exists_run_of_mem_segments h.sound hmem
    obtain ⟨before, after, hsplit, -⟩ := hrun.maximal
    refine ⟨run, ⟨before, after, hsplit.symm⟩, rfl, ?_⟩
    exact Boundary.isBoundary h.sound.form hrun.subset h.sound.describes h.sound.outputs
  numbered := by
    rw [segments_plan, List.map_map, List.length_map, List.length_zipIdx, List.range_eq_range']
    exact List.zipIdx_map_snd 0 (t.runs d)
  apart := isChain_blocks (isChain_stretches _ t.graph.nodes)
  length := by
    intro s hmem
    obtain ⟨id, run, hrun, rfl⟩ := exists_run_of_mem_segments h.sound hmem
    have hadmissible := admissible_of_stuck h.reached.subset_eligibleIds h.stuck
    show _ ≤ (run.map Node.id).length
    rw [List.length_map]
    exact hadmissible.length run hrun

/-- The violations of demoted nodes are what falls back in their plan. -/
theorem violations_eq_fallbacks (t : Terrain) (d : Demoted) :
    (t.graph.violations d).map Violation.entry = (t.plan d).fallbacks := by
  have hfallbacks : (t.plan d).fallbacks = t.graph.nodes.filterMap
      fun node => (d.lookup node.id).map fun reason => (node.id, reason) := by
    have h : (t.plan d).fallbacks = _ := fallbacks_blocks fun part => fits_of_mem_stretches
    rw [flatMap_stretches] at h
    exact h
  rw [hfallbacks, Graph.violations, List.map_filterMap]
  simp only [Option.map_map]
  rfl

/-- Nothing falls back exactly if nothing is demoted. -/
theorem fallbacks_plan_eq_nil (hd : t.Listed d) : (t.plan d).fallbacks = [] ↔ d = [] := by
  rw [← violations_eq_fallbacks, List.map_eq_nil_iff, Graph.violations, List.filterMap_eq_nil_iff]
  constructor
  · intro h
    cases d with
    | nil => rfl
    | cons entry rest =>
      obtain ⟨node, hn, hid⟩ := List.mem_map.mp (hd.2 List.mem_cons_self)
      have hnone := h node hn
      rw [hid, List.lookup_cons_self] at hnone
      cases hnone
  · rintro rfl node -
    rfl

end Terrain

/-- The segments of a partition are numbered in their order. -/
theorem Plan.numbered_of_partition {A : Accelerator} {g : Graph} {r : Registry A}
    {options : PartitionOptions} {shapes? : Option ShapeTable} {plan : Plan}
    (h : g.partition r options shapes? = .ok plan) :
    plan.segments.map Segment.id = List.range plan.segments.length := by
  obtain ⟨index, hindex, hsettled, rfl⟩ := Graph.exists_settled_of_partition h
  exact (hsettled.covers hindex).numbered

/-! ## Top theorem -/

/-- Every partition is a valid cover; full compilation differs only in refusing what falls back. -/
theorem partition_covers {A : Accelerator} {g : Graph} {r : Registry A}
    {options : PartitionOptions} {shapes? : Option ShapeTable} {index : GraphIndex}
    (hindex : GraphIndex.build g = .ok index) :
    (∀ plan, g.partition r options shapes? = .ok plan → plan.Covers g options.minBlockSize) ∧
    ∃ plan violations,
      g.partition r { options with fullCompilation := false } shapes? = .ok plan ∧
      g.partition r { options with fullCompilation := true } shapes? =
        (if plan.fallbacks = [] then .ok plan else .error (.requiresFallback violations)) ∧
      violations.map Violation.entry = plan.fallbacks ∧
      ∀ v ∈ violations, ∃ node ∈ g.nodes, node.id = v.node ∧ node.kind = v.kind := by
  have hsettled : (g.terrain index shapes?).Settled r options
      (g.settled r options index shapes?) := Graph.settled_of_build hindex
  constructor
  · intro plan hplan
    rw [Graph.partition_eq hindex] at hplan
    split at hplan
    · cases hplan
    · obtain rfl := Except.ok.inj hplan
      exact hsettled.covers hindex
  · refine ⟨_, _, Graph.partition_eq_ok hindex rfl, ?_,
      Terrain.violations_eq_fallbacks (g.terrain index shapes?) (g.settled r options index shapes?),
      fun v hv => ?_⟩
    · rw [Graph.partition_eq_of_full hindex rfl]
      exact if_congr (Terrain.fallbacks_plan_eq_nil hsettled.listed).symm rfl rfl
    · obtain ⟨node, hn, hv⟩ := List.mem_filterMap.mp hv
      obtain ⟨reason, -, rfl⟩ := Option.map_eq_some_iff.mp hv
      exact ⟨node, hn, rfl, rfl⟩

theorem partition_covers_activations :
    ∃ index, GraphIndex.build Graph.activations = .ok index ∧
      (∀ plan, Graph.activations.partition (Registry.standard Reference.accelerator)
          ⟨1, [.tanh], [], true⟩ none = .ok plan → plan.Covers Graph.activations 1) ∧
      ∃ plan violations,
        Graph.activations.partition (Registry.standard Reference.accelerator)
          ⟨1, [.tanh], [], false⟩ none = .ok plan ∧
        Graph.activations.partition (Registry.standard Reference.accelerator)
          ⟨1, [.tanh], [], true⟩ none =
          (if plan.fallbacks = [] then .ok plan else .error (.requiresFallback violations)) ∧
        violations.map Violation.entry = plan.fallbacks ∧
        ∀ v ∈ violations, ∃ node ∈ Graph.activations.nodes,
          node.id = v.node ∧ node.kind = v.kind := by
  obtain ⟨index, hindex⟩ := GraphIndex.exists_build Graph.singleAssignment_activations
  exact ⟨index, hindex, partition_covers hindex⟩

end HybridGraph

/-! ## The greatest plan -/

namespace HybridGraph

/-- The segments of a partition are the greatest admissible set, in whatever order nodes are
demoted. -/
theorem partition_isGreatest {A : Accelerator} {g : Graph} {r : Registry A}
    {options : PartitionOptions} {shapes? : Option ShapeTable} {index : GraphIndex}
    (hindex : GraphIndex.build g = .ok index) (hfull : options.fullCompilation = false) :
    ∃ plan, g.partition r options shapes? = .ok plan ∧
      IsGreatest (g.admissibleSets r options shapes?) plan.engineNodes ∧
      ∀ S, (g.Reaches r options shapes? S ∧ ∀ id ∈ S, ¬ g.Demotes options shapes? S id) ↔
        S = plan.engineNodes := by
  have hsettled : (g.terrain index shapes?).Settled r options
      (g.settled r options index shapes?) := Graph.settled_of_build hindex
  have hgreatest := isGreatest_of_stuck hsettled.sound.form hsettled.reached hsettled.stuck
  refine ⟨_, Graph.partition_eq_ok hindex hfull, ?_, fun S => ?_⟩
  · rw [Terrain.engineNodes_plan hsettled.sound]
    exact hgreatest
  · rw [Terrain.engineNodes_plan hsettled.sound]
    constructor
    · rintro ⟨hreach, hstuck⟩
      exact (isGreatest_of_stuck hsettled.sound.form hreach hstuck).unique hgreatest
    · rintro rfl
      exact ⟨hsettled.reached, hsettled.stuck⟩

theorem partition_isGreatest_activations :
    ∃ index, GraphIndex.build Graph.activations = .ok index ∧
      (⟨1, [], [], false⟩ : PartitionOptions).fullCompilation = false ∧
      ∃ plan, Graph.activations.partition (Registry.standard Reference.accelerator)
          ⟨1, [], [], false⟩ (some []) = .ok plan ∧
        IsGreatest (Graph.activations.admissibleSets (Registry.standard Reference.accelerator)
          ⟨1, [], [], false⟩ (some [])) plan.engineNodes ∧
        ∀ S, (Graph.activations.Reaches (Registry.standard Reference.accelerator)
            ⟨1, [], [], false⟩ (some []) S ∧
            ∀ id ∈ S, ¬ Graph.activations.Demotes ⟨1, [], [], false⟩ (some []) S id) ↔
          S = plan.engineNodes := by
  obtain ⟨index, hindex⟩ := GraphIndex.exists_build Graph.singleAssignment_activations
  exact ⟨index, hindex, rfl, partition_isGreatest hindex rfl⟩

end HybridGraph
