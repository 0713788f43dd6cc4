import HybridGraph.Proofs.Partition.Settling
/-!
# Plans of settled demotions

`Graph.partition` starts from the nodes that are not eligible, lets demotion settle and makes a
plan of what is kept.  What is known about the settled nodes is collected in `Terrain.Settled`; the
segments of the plan are the runs that are left:

    (t.plan d).segments = (t.runs d).zipIdx.map fun (run, id) => t.segment id run    (segments_plan)
    (t.plan d).engineNodes = t.kept d                                             (engineNodes_plan)
-/

namespace HybridGraph

variable {A : Accelerator}

/-! ## Where demotion starts -/

namespace Graph

variable {g : Graph} {r : Registry A} {options : PartitionOptions}

theorem excluded?_eq_none {node : Node} :
    g.excluded? r options node = none ↔ g.Eligible r options node := by
  unfold excluded?
  split
  · next hkind =>
    exact ⟨nofun, fun h => absurd (List.contains_iff_mem.mp hkind) h.kind⟩
  · next hkind =>
    rw [List.contains_iff_mem] at hkind
    split
    · next path hpath =>
      refine ⟨nofun, fun h => ?_⟩
      have hin := List.find?_some hpath
      rw [h.scope path (List.mem_of_find?_eq_some hpath)] at hin
      cases hin
    · next hnone =>
      have hscope : ∀ path ∈ options.excludedModules, node.inModule path = false := by
        intro path hpath
        exact Bool.eq_false_iff.mpr (List.find?_eq_none.mp hnone path hpath)
      split
      · next hsupport => exact ⟨fun _ => ⟨hsupport, hkind, hscope⟩, fun _ => rfl⟩
      · next hsupport =>
        refine ⟨nofun, fun h => ?_⟩
        rw [h.supported] at hsupport
        cases hsupport

/-- Adds a node to the demoted ones unless it is eligible. -/
def addExcluded (g : Graph) (r : Registry A) (options : PartitionOptions) (d : Demoted)
    (node : Node) : Demoted :=
  match g.excluded? r options node with
  | some reason => d.add node.id reason
  | none => d

theorem contains_addExcluded {d : Demoted} {node : Node} {id : NodeId} :
    (g.addExcluded r options d node).contains id = true ↔
      d.contains id = true ∨ (¬ g.Eligible r options node ∧ node.id = id) := by
  unfold addExcluded
  rw [← excluded?_eq_none]
  split
  · next reason hsome =>
    rw [Demoted.contains_add, hsome]
    constructor
    · rintro (rfl | h)
      · exact .inr ⟨nofun, rfl⟩
      · exact .inl h
    · rintro (h | ⟨-, rfl⟩)
      · exact .inr h
      · exact .inl rfl
  · next hnone =>
    rw [hnone]
    constructor
    · exact .inl
    · rintro (h | ⟨hnot, -⟩)
      · exact h
      · exact absurd rfl hnot

theorem contains_foldl_addExcluded {d : Demoted} {nodes : List Node} {id : NodeId} :
    (nodes.foldl (g.addExcluded r options) d).contains id = true ↔
      d.contains id = true ∨ ∃ node ∈ nodes, ¬ g.Eligible r options node ∧ node.id = id := by
  induction nodes generalizing d with
  | nil => simp
  | cons node nodes ih =>
    rw [List.foldl_cons, ih, contains_addExcluded, or_assoc]
    simp only [List.exists_mem_cons_iff]

end Graph

namespace Terrain

variable {t : Terrain} {r : Registry A} {options : PartitionOptions}

/-- Demotion starts from the eligible nodes. -/
theorem kept_excludedNodes (hs : t.Sound) :
    t.kept (t.graph.excludedNodes r options) = t.graph.eligibleIds r options := by
  have hiff : ∀ id, (t.graph.excludedNodes r options).contains id = true ↔
      ∃ node ∈ t.graph.nodes, ¬ t.graph.Eligible r options node ∧ node.id = id := by
    intro id
    refine Graph.contains_foldl_addExcluded.trans ⟨?_, .inr⟩
    rintro (h | h)
    · cases h
    · exact h
  ext id
  constructor
  · rintro ⟨hid, hnot⟩
    obtain ⟨node, hn, rfl⟩ := List.mem_map.mp hid
    refine ⟨node, hn, ?_, rfl⟩
    by_contra hne
    exact Bool.eq_false_iff.mp hnot ((hiff _).mpr ⟨node, hn, hne, rfl⟩)
  · rintro ⟨node, hn, he, rfl⟩
    refine ⟨List.mem_map_of_mem hn, Bool.eq_false_iff.mpr fun hc => ?_⟩
    obtain ⟨other, ho, hnot, hid⟩ := (hiff _).mp hc
    rw [hs.form.nodes.eq_of_id ho hn hid] at hnot
    exact hnot he

theorem listed_excludedNodes : t.Listed (t.graph.excludedNodes r options) := by
  have hall : ∀ {nodes : List Node} {d : Demoted}, nodes ⊆ t.graph.nodes → t.Listed d →
      t.Listed (nodes.foldl (t.graph.addExcluded r options) d) := by
    intro nodes
    induction nodes with
    | nil => exact fun _ hd => hd
    | cons node nodes ih =>
      intro d hsub hd
      refine ih (fun n hn => hsub (List.mem_cons_of_mem _ hn)) ?_
      unfold Graph.addExcluded
      split
      · exact hd.add (List.mem_map_of_mem (hsub List.mem_cons_self)) _
      · exact hd
  exact hall (fun _ => id) ⟨List.nodup_nil, List.nil_subset _⟩

/-! ## Where it ends -/

/-- Demotion by the rules that has come to an end. -/
structure Settled (t : Terrain) (r : Registry A) (options : PartitionOptions) (d : Demoted) :
    Prop where
  sound : t.Sound
  listed : t.Listed d
  reached : t.graph.Reaches r options t.shapes? (t.kept d)
  stuck : ∀ id ∈ t.kept d, ¬ t.graph.Demotes options t.shapes? (t.kept d) id

theorem settled_settle (hs : t.Sound) (r : Registry A) (options : PartitionOptions) :
    t.Settled r options (t.settle (max options.minBlockSize 1) (t.graph.nodes.length + 1)
      (t.graph.excludedNodes r options)) := by
  have hlisted : t.Listed (t.graph.excludedNodes r options) := listed_excludedNodes
  have hextends : t.Extends options (t.graph.excludedNodes r options) _ :=
    extends_settle hs (t.graph.nodes.length + 1)
  refine ⟨hs, hlisted.extends hextends, hextends.reaches ?_, stuck_of_round_eq hs ?_⟩
  · rw [kept_excludedNodes hs]
    exact .start
  · exact round_settle hs hlisted (by omega)

/-! ## The plan -/

/-- The segment of a run. -/
def segment (t : Terrain) (id : Nat) (run : List Node) : Segment :=
  ⟨id, run.map Node.id, boundaryInputs t.index (run.map Node.id) run,
    boundaryOutputs t.index (run.map Node.id) run⟩

/-- The plan of what is kept. -/
def plan (t : Terrain) (d : Demoted) : Plan :=
  ⟨t.blocks d 0 (stretches (fun node => !d.contains node.id) t.graph.nodes)⟩

theorem segments_blocks (d : Demoted) (id : Nat) (parts : List Stretch) :
    Plan.segments ⟨t.blocks d id parts⟩ =
      ((parts.filterMap Stretch.run?).zipIdx id).map fun (run, id) => t.segment id run := by
  induction parts generalizing id with
  | nil => rfl
  | cons part parts ih =>
    cases part with
    | single node => exact ih id
    | run nodes => exact congrArg (t.segment id nodes :: ·) (ih (id + 1))

/-- The segments of a plan are the runs that are left, in order. -/
theorem segments_plan (d : Demoted) :
    (t.plan d).segments = (t.runs d).zipIdx.map fun (run, id) => t.segment id run :=
  segments_blocks d 0 _

end Terrain

/-- The nodes of a plan that engines take. -/
def Plan.engineNodes (p : Plan) : Set NodeId := {id | ∃ s ∈ p.segments, id ∈ s.nodes}

/-- Engines take what is kept. -/
theorem Terrain.engineNodes_plan {t : Terrain} (hs : t.Sound) (d : Demoted) :
    (t.plan d).engineNodes = t.kept d := by
  ext id
  show (∃ s ∈ (t.plan d).segments, id ∈ s.nodes) ↔ _
  rw [segments_plan]
  constructor
  · rintro ⟨s, hmem, hid⟩
    obtain ⟨⟨run, k⟩, hrun, rfl⟩ := List.mem_map.mp hmem
    obtain ⟨node, hnode, rfl⟩ := List.mem_map.mp hid
    exact ((mem_runs hs).mp (List.fst_mem_of_mem_zipIdx hrun)).members node hnode
  · rintro hid
    obtain ⟨node, hn, rfl⟩ := List.mem_map.mp hid.1
    obtain ⟨run, hrun, hnode⟩ := exists_isRun hn hid
    obtain ⟨i, hi⟩ := List.mem_iff_getElem?.mp ((mem_runs hs).mpr hrun)
    refine ⟨t.segment i run, List.mem_map.mpr ⟨(run, i), ?_, rfl⟩, List.mem_map_of_mem hnode⟩
    exact List.mem_zipIdx_iff_getElem?.mpr hi

namespace Graph

variable {g : Graph} {index : GraphIndex} {shapes? : Option ShapeTable} {r : Registry A}
  {options : PartitionOptions}

/-- What demotion looks at in a graph. -/
def terrain (g : Graph) (index : GraphIndex) (shapes? : Option ShapeTable) : Terrain :=
  ⟨g, index, shapes?⟩

/-- The nodes of a graph that are demoted in the end. -/
def settled (g : Graph) (r : Registry A) (options : PartitionOptions) (index : GraphIndex)
    (shapes? : Option ShapeTable) : Demoted :=
  (g.terrain index shapes?).settle (max options.minBlockSize 1) (g.nodes.length + 1)
    (g.excludedNodes r options)

theorem settled_of_build (hindex : GraphIndex.build g = .ok index) :
    (g.terrain index shapes?).Settled r options (g.settled r options index shapes?) := by
  obtain ⟨hform, hdescribes, houtputs⟩ := GraphIndex.describes_of_build hindex
  exact Terrain.settled_settle ⟨hform, hdescribes, houtputs⟩ r options

/-- A partition is the plan of what demotion keeps, unless full compilation refuses it. -/
theorem partition_eq (hindex : GraphIndex.build g = .ok index) :
    g.partition r options shapes? =
      if options.fullCompilation && !(g.settled r options index shapes?).isEmpty then
        .error (.requiresFallback (g.violations (g.settled r options index shapes?)))
      else .ok ((g.terrain index shapes?).plan (g.settled r options index shapes?)) := by
  unfold partition
  rw [hindex]
  by_cases h : options.fullCompilation && !(g.settled r options index shapes?).isEmpty
  · rw [if_pos h]
    show (if _ then _ else _) = _
    exact if_pos h
  · rw [if_neg h]
    show (if _ then _ else _) = _
    exact if_neg h

theorem partition_eq_ok (hindex : GraphIndex.build g = .ok index)
    (hfull : options.fullCompilation = false) :
    g.partition r options shapes? =
      .ok ((g.terrain index shapes?).plan (g.settled r options index shapes?)) := by
  rw [partition_eq hindex, hfull, Bool.false_and, if_neg Bool.false_ne_true]

theorem partition_eq_of_full (hindex : GraphIndex.build g = .ok index)
    (hfull : options.fullCompilation = true) :
    g.partition r options shapes? = if g.settled r options index shapes? = [] then
      .ok ((g.terrain index shapes?).plan (g.settled r options index shapes?))
    else .error (.requiresFallback (g.violations (g.settled r options index shapes?))) := by
  rw [partition_eq hindex, hfull, Bool.true_and]
  cases g.settled r options index shapes? with
  | nil => rfl
  | cons entry rest => rfl

/-- A partition is the plan of settled demotion. -/
theorem exists_settled_of_partition {plan : Plan}
    (h : g.partition r options shapes? = .ok plan) :
    ∃ index, GraphIndex.build g = .ok index ∧
      (g.terrain index shapes?).Settled r options (g.settled r options index shapes?) ∧
      plan = (g.terrain index shapes?).plan (g.settled r options index shapes?) := by
  obtain ⟨index, hindex, -⟩ := Outcome.bind_eq_ok.mp h
  rw [Outcome.mapError_eq_ok] at hindex
  rw [partition_eq hindex] at h
  split at h
  · cases h
  · exact ⟨index, hindex, settled_of_build hindex, (Except.ok.inj h).symm⟩

/-- Engines take eligible nodes only. -/
theorem engineNodes_subset_eligibleIds {plan : Plan}
    (h : g.partition r options shapes? = .ok plan) :
    plan.engineNodes ⊆ g.eligibleIds r options := by
  obtain ⟨index, -, hsettled, rfl⟩ := exists_settled_of_partition h
  rw [Terrain.engineNodes_plan hsettled.sound]
  exact hsettled.reached.subset_eligibleIds

end Graph

end HybridGraph
