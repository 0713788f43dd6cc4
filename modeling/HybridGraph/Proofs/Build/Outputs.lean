import HybridGraph.Proofs.Build.History
import HybridGraph.Proofs.Build.Members
import HybridGraph.Proofs.Build.Planned
import HybridGraph.Proofs.Engine.Refusals
import HybridGraph.Proofs.Lowering.Liveness
import HybridGraph.Proofs.Lowering.Preservation
/-!
# Outputs of segments

Nodes with side effects never become layers, so in a live graph the last node of a segment has a
result that is wanted, and nobody in front of it can be the one who reads it.  Hence segments of
plans have outputs, and a segment with outputs becomes a network with outputs, which is never
refused for having none:

    b.graph.Live → s ∈ plan.segments → s.outputs ≠ []                 (outputs_ne_nil_of_partition)
    s.outputs ≠ [] → FailsWith (¬ BuildError.NoOutputs ·) (b.build s inputs)      (failsWith_build)
-/

namespace HybridGraph

/-! ## Runs of live graphs -/

/-- No node reads its own results. -/
theorem InOrder.notMem_inputs_of_output {arena : Nat} {inputs : List ValueId} {nodes : List Node}
    (h : InOrder arena inputs nodes) {node : Node} (hn : node ∈ nodes) {v : ValueId}
    (hv : v ∈ node.outputs) : v ∉ node.inputs := by
  intro hread
  obtain ⟨before, after, hsplit⟩ := List.append_of_mem hn
  have hnode := h before node after hsplit
  exact hnode.unassigned v hv (hnode.reads v hread)

/-- Something leaves a run of a live graph if nothing in it has side effects. -/
theorem Graph.Live.exists_leaves {g : Graph} (h : g.Live) (hg : g.SingleAssignment)
    {run : List Node} (hrun : run <:+: g.nodes) (hne : run ≠ [])
    (heffects : ∀ node ∈ run, node.kind.hasSideEffects = false) : ∃ v, g.Leaves run v := by
  obtain ⟨before, after, hsplit⟩ := hrun
  obtain ⟨front, last, rfl⟩ : ∃ front last, run = front ++ [last] :=
    ⟨_, _, (List.dropLast_append_getLast hne).symm⟩
  have hlast : last ∈ front ++ [last] := by simp
  have hnode : g.nodes = (before ++ front) ++ last :: after := by simp [← hsplit]
  have hmem : last ∈ g.nodes := by simp [hnode]
  rcases h last hmem with hroot | ⟨v, hv, hwanted⟩
  · rw [heffects last hlast] at hroot
    cases hroot
  refine ⟨v, ⟨last, hlast, hv⟩, ?_⟩
  rcases hwanted with hout | ⟨reader, hreader, hread⟩
  · exact .inl hout
  · refine .inr ⟨reader, hreader, fun hin => ?_, hread⟩
    rcases List.mem_append.mp hin with hfront | hself
    · have horder := hg.nodes
      rw [hnode] at horder
      exact notMem_inputs_of_before horder hv reader (List.mem_append_right _ hfront) hread
    · obtain rfl := List.mem_singleton.mp hself
      exact hg.nodes.notMem_inputs_of_output hmem hv hread

/-- What has side effects is for the interpreter only, whatever converters there are. -/
theorem Registry.hasSideEffects_of_support {A : Accelerator} {r : Registry A} {g : Graph}
    {node : Node} (h : r.support g node = .ok ()) : node.kind.hasSideEffects = false := by
  unfold support at h
  cases hkind : node.kind <;> first | rfl | (rw [hkind] at h; cases h)

/-! ## Segments of plans -/

namespace SegmentBuilder

variable {A : Accelerator}

/-- A segment that a live graph is partitioned into has outputs. -/
theorem outputs_ne_nil_of_partition {b : SegmentBuilder A} {options : PartitionOptions}
    {plan : Plan} {s : Segment} (hg : b.graph.SingleAssignment) (hlive : b.graph.Live)
    (hplan : b.graph.partition b.registry options (some b.shapes) = .ok plan)
    (hs : s ∈ plan.segments) : s.outputs ≠ [] := by
  obtain ⟨T, run, hadmissible, hrun, -, hboundary⟩ := exists_run_of_partition hg hplan hs
  obtain ⟨before, after, hsplit, -⟩ := hrun.maximal
  have heffects : ∀ node ∈ run, node.kind.hasSideEffects = false := by
    intro node hn
    obtain ⟨other, ho, heligible, hid⟩ := hadmissible.eligible (hrun.members node hn)
    rw [← hg.nodes.eq_of_id ho (hrun.subset hn) hid]
    exact Registry.hasSideEffects_of_support heligible.supported
  obtain ⟨v, hv⟩ := hlive.exists_leaves hg ⟨before, after, hsplit.symm⟩ hrun.nonempty heffects
  exact List.ne_nil_of_mem ((hboundary.mem_outputs v).mpr hv)

end SegmentBuilder

/-! ## Builds of segments -/

open Outcome

/-- A network was refused because it marks no outputs. -/
def BuildFault.NoOutputs : BuildFault → Prop
  | .engine cause => cause.fault = .noOutputs
  | _ => False

/-- The build of a segment failed because its network marks no outputs. -/
def BuildError.NoOutputs (e : BuildError) : Prop := e.fault.NoOutputs

namespace SegmentBuilder

variable {b : SegmentBuilder Reference.accelerator} {s : Segment} {inputs : List BoundaryInput}

theorem failsWith_network : FailsWith (¬ BuildError.NoOutputs ·) (b.network s inputs) := by
  refine .bind (.foldlM (fun state entry => ?_) _ _) fun _ =>
    .bind (.foldlM (fun state id => ?_) _ _) fun _ => .foldlM (fun state entry => ?_) _ _
  · exact .bind (.mapError (Network.failsWith_addInput _ _ _) fun _ h => h) fun _ => .ok _
  · unfold addMember
    split
    · exact .bind (.mapError (.any _) fun _ _ => not_false) fun _ => .ok _
    · exact .error not_false
  · unfold addOutput
    dsimp only
    split
    · exact .bind (.mapError (Network.failsWith_markOutput _ _) fun _ h => h) fun _ => .ok _
    · exact .error not_false

/-- A segment with outputs becomes a network with outputs. -/
theorem outputs_ne_nil_of_network {state : EmitState Reference.accelerator}
    (h : b.network s inputs = .ok state) (hs : s.outputs ≠ []) :
    Network.outputs state.network ≠ [] := by
  obtain ⟨-, converted, -, -, houtputs⟩ := network_eq_ok.mp h
  obtain ⟨marks, hmarked, hmarks⟩ := outputs_of_addOutputs houtputs
  intro hnil
  rw [hmarked, List.append_eq_nil_iff] at hnil
  rw [hnil.2, List.forall₂_nil_right_iff] at hmarks
  exact hs hmarks

/-- Building a segment with outputs never asks for an engine without outputs. -/
theorem failsWith_build (hs : s.outputs ≠ []) :
    FailsWith (¬ BuildError.NoOutputs ·) (b.build s inputs) :=
  .bind_of_ok failsWith_network fun _ hstate =>
    .mapError (Network.failsWith_build _ (outputs_ne_nil_of_network hstate hs)) fun _ h => h

/-! ## Compiled segments -/

theorem failsWith_boundary : FailsWith (¬ BuildError.NoOutputs ·) (b.boundary s) := by
  refine .mapError (p := (¬ BuildFault.NoOutputs ·)) (.mapM (fun v => ?_) _) fun _ h => h
  unfold Graph.boundaryInput
  split
  · refine .bind ?_ fun _ => ?_
    · unfold Graph.engineType
      split
      · exact .ok _
      · split
        · exact .ok _
        · exact .error not_false
    · split
      · exact .ok _
      · exact .error not_false
  · exact .error not_false

theorem failsWith_key : FailsWith (¬ BuildError.NoOutputs ·) (b.key s inputs) := by
  refine .bind (.bind (.foldlM (fun state id => ?_) _ _) fun _ => .ok _) fun _ => .ok _
  unfold Fingerprint.addMember
  dsimp only
  split
  · refine .bind (.mapM (fun v => ?_) _) fun _ => .ok _
    unfold Fingerprint.operand
    split
    · exact .ok _
    · exact .error not_false
  · exact .error not_false

theorem failsWith_ports {key : EngineKey} {engine : Engine} :
    FailsWith (¬ BuildError.NoOutputs ·) (b.ports s inputs key engine) := by
  unfold ports
  dsimp only
  split
  · exact .error not_false
  · exact .ok _

/-- Segments with outputs are compiled without such a failure, whatever the compiler remembers of
others. -/
theorem failsWith_compile (history : List Segment) (h : ∀ s' ∈ history ++ [s], s'.outputs ≠ []) :
    FailsWith (¬ BuildError.NoOutputs ·) (b.compile (b.cacheAfter history) s).1 := by
  intro e he
  rcases exists_of_compile_error he with he | ⟨inputs, key, -, he⟩
  · exact (FailsWith.bind failsWith_boundary fun _ => .bind failsWith_key fun _ => .ok _) e he
  · rcases he with ⟨s', hs', inputs', cause, -, hbuild, rfl⟩ | ⟨engine, hports⟩
    · exact failsWith_build (h s' hs') cause hbuild
    · exact failsWith_ports e hports

theorem failsWith_compileAll (history : List Segment) {segments : List Segment}
    (h : ∀ s ∈ history ++ segments, s.outputs ≠ []) :
    FailsWith (¬ BuildError.NoOutputs ·) (b.compileAll (b.cacheAfter history) segments) := by
  induction segments generalizing history with
  | nil => exact .ok _
  | cons s rest ih =>
    have hnext : (b.compile (b.cacheAfter history) s).2 = b.cacheAfter (history ++ [s]) := by
      rw [cacheAfter, cacheAfter, List.foldl_append]
      rfl
    rw [compileAll]
    refine .bind (failsWith_compile history fun s' hs' => h s' ?_) fun engine =>
      .bind ?_ fun _ => .ok _
    · simp only [List.mem_append, List.mem_cons] at hs' ⊢
      tauto
    · have hlater := ih (history ++ [s]) (by simpa using h)
      rwa [← hnext] at hlater

end SegmentBuilder

end HybridGraph
