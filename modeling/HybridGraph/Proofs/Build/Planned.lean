import HybridGraph.Build.Segment
import HybridGraph.Proofs.Build.Numbering
import HybridGraph.Proofs.Graph.WellFormed
import HybridGraph.Proofs.Partition.Cover
import HybridGraph.Proofs.Program.Assembling
/-!
# Segments of plans, as their builder sees them

What a partition promises to whoever builds its segments (`SegmentBuilder.Planned`): the members are
nodes that the registry supports, no value is defined or enters twice, members read what enters and
what members before them define, the outputs are defined inside, and element type and shape of
everything that enters are known.

    b.graph.verify = .ok () → b.graph.partition b.registry options (some b.shapes) = .ok plan →
      s ∈ plan.segments → ∃ run, b.Planned s run                          (planned_of_partition)
-/

namespace HybridGraph

variable {A : Accelerator}

/-- A segment as plans have them, with its members. -/
structure SegmentBuilder.Planned (b : SegmentBuilder A) (s : Segment) (run : List Node) : Prop where
  resolves : b.graph.Resolves s.nodes run
  supported : ∀ node ∈ run, b.registry.support b.graph node = .ok ()
  distinct : (s.inputs ++ run.flatMap Node.outputs).Nodup
  reads : ReadsInOrder s.inputs run
  defined : s.outputs ⊆ run.flatMap Node.outputs
  known : ∀ v ∈ s.inputs, b.graph.Bindable b.shapes v

/-- The ids of nodes of a graph resolve to them. -/
theorem Graph.resolves_map_id {g : Graph} (hg : g.SingleAssignment) {run : List Node}
    (hrun : run ⊆ g.nodes) : g.Resolves (run.map Node.id) run := by
  induction run with
  | nil => exact .nil
  | cons node rest ih =>
    exact .cons (node?_id hg (hrun List.mem_cons_self))
      (ih fun n hn => hrun (List.mem_cons_of_mem _ hn))

/-- What enters a run and what it defines are all different. -/
theorem Graph.IsBoundary.nodup_values {g : Graph} (hg : g.SingleAssignment) {run : List Node}
    {inputs outputs : List ValueId} (hrun : run <:+: g.nodes)
    (h : g.IsBoundary run inputs outputs) : (inputs ++ run.flatMap Node.outputs).Nodup := by
  obtain ⟨before, after, hsplit⟩ := hrun
  have hresults := hg.nodes.nodup_flatMap_outputs
  rw [← hsplit, List.flatMap_append, List.flatMap_append] at hresults
  have hdefined := (List.nodup_append.mp (List.nodup_append.mp hresults).1).2.1
  refine List.nodup_append.mpr ⟨h.nodup_inputs, hdefined, fun v hv w hw heq => ?_⟩
  subst heq
  obtain ⟨node, hn, hdef⟩ := List.mem_flatMap.mp hw
  exact ((h.mem_inputs v).mp hv).2 ⟨node, hn, hdef⟩

/-- A segment of a plan is a run of the nodes that engines take, with its boundary. -/
theorem SegmentBuilder.exists_run_of_partition {b : SegmentBuilder A} {options : PartitionOptions}
    {plan : Plan} {s : Segment} (hg : b.graph.SingleAssignment)
    (hplan : b.graph.partition b.registry options (some b.shapes) = .ok plan)
    (hs : s ∈ plan.segments) : ∃ (T : Set NodeId) (run : List Node),
      b.graph.Admissible b.registry options (some b.shapes) T ∧ IsRun (·.id ∈ T) b.graph.nodes run ∧
        s.nodes = run.map Node.id ∧ b.graph.IsBoundary run s.inputs s.outputs := by
  obtain ⟨index, hindex⟩ := GraphIndex.exists_build hg
  have hsettled : (b.graph.terrain index (some b.shapes)).Settled b.registry options
      (b.graph.settled b.registry options index (some b.shapes)) := Graph.settled_of_build hindex
  rw [Graph.partition_eq hindex] at hplan
  split at hplan
  · cases hplan
  obtain rfl := Except.ok.inj hplan
  obtain ⟨id, run, hrun, rfl⟩ := Terrain.exists_run_of_mem_segments hsettled.sound hs
  exact ⟨_, run, admissible_of_stuck hsettled.reached.subset_eligibleIds hsettled.stuck, hrun, rfl,
    Boundary.isBoundary hg hrun.subset hsettled.sound.describes hsettled.sound.outputs⟩

/-- Plans hand their builder segments that hold together. -/
theorem SegmentBuilder.planned_of_partition {b : SegmentBuilder A} {options : PartitionOptions}
    {plan : Plan} {s : Segment} (hg : b.graph.SingleAssignment)
    (hplan : b.graph.partition b.registry options (some b.shapes) = .ok plan)
    (hs : s ∈ plan.segments) : ∃ run, b.Planned s run := by
  obtain ⟨T, run, hadmissible, hrun, hnodes, hboundary⟩ := exists_run_of_partition hg hplan hs
  obtain ⟨before, after, hsplit, -⟩ := hrun.maximal
  refine ⟨run, hnodes ▸ Graph.resolves_map_id hg hrun.subset, fun node hn => ?_,
    hboundary.nodup_values hg ⟨before, after, hsplit.symm⟩, fun front node back => ?_,
    fun v hv => ?_, fun v hv => ?_⟩
  · obtain ⟨other, ho, heligible, hid⟩ := hadmissible.eligible (hrun.members node hn)
    rw [← hg.nodes.eq_of_id ho (hrun.subset hn) hid]
    exact heligible.supported
  · exact Graph.reads_of_split hg (hsplit.trans (List.append_assoc ..)) hboundary.mem_inputs
  · exact hboundary.production.subset hv
  · exact (hadmissible.inputs run hrun v ((hboundary.mem_inputs v).mp hv)).2 b.shapes rfl

/-- What a segment of a plan gives are tensors. -/
theorem SegmentBuilder.isTensor_of_partition {b : SegmentBuilder A} {options : PartitionOptions}
    {plan : Plan} {s : Segment} (hg : b.graph.SingleAssignment)
    (hplan : b.graph.partition b.registry options (some b.shapes) = .ok plan)
    (hs : s ∈ plan.segments) {v : ValueId} (hv : v ∈ s.outputs) : b.graph.isTensor v = true := by
  obtain ⟨T, run, hadmissible, hrun, -, hboundary⟩ := exists_run_of_partition hg hplan hs
  exact hadmissible.outputs run hrun v ((hboundary.mem_outputs v).mp hv)

end HybridGraph
