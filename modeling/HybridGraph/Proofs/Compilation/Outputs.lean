import HybridGraph.Proofs.Build.Outputs
import HybridGraph.Proofs.Compilation.SingleEngine
/-!
# Compilations never build engines without outputs

A prepared graph is live: lowering leaves live graphs, and filling in types changes no node and no
output.  So every segment of its plan has outputs, whatever the registry, and so has the segment
that a graph is converted to.  No compilation and no conversion ever fails because a network marks
no outputs:

    compiler.prepare g c = .ok p → p.lowered.Live                                 (live_of_prepare)
    compiler.prepare g c = .ok p → s ∈ p.plan.segments → s.outputs ≠ []
                                                                       (outputs_ne_nil_of_prepare)
-/

namespace HybridGraph

/-- Filling in types changes nothing but the values. -/
theorem ShapeTable.exists_values_refine (table : ShapeTable) (g : Graph) :
    ∃ values, (table.refine g).1 = { g with values } := by
  refine List.foldlRecOn (motive := fun state => ∃ values, state.1 = { g with values }) table
    refineValue ⟨g.values, rfl⟩ fun state ⟨values, hstate⟩ entry _ => ?_
  unfold refineValue
  dsimp only
  split
  · exact ⟨_, by rw [hstate]; rfl⟩
  · exact ⟨values, hstate⟩

/-- Liveness is about nodes and outputs. -/
theorem Graph.Live.with_values {g : Graph} (h : g.Live) (values : Array ValueInfo) :
    { g with values }.Live := h

namespace Compiler

variable {A : Accelerator} {compiler : Compiler A} {g : Graph} {c : CompileConfig} {p : Prepared}

theorem exists_stats_of_lower {options : LoweringOptions} {lowered : Graph}
    (h : compiler.lower g options = .ok lowered) :
    ∃ stats, (g.lower compiler.cap options).2 = .ok stats := by
  unfold lower at h
  split at h
  next last result heq =>
    rw [heq]
    cases result with
    | error e => cases h
    | ok stats => exact ⟨stats, rfl⟩

theorem live_of_prepare (h : compiler.prepare g c = .ok p) : p.lowered.Live := by
  obtain ⟨lowered, hlowered, hrefined⟩ := exists_of_prepare h
  obtain ⟨stats, hstats⟩ := exists_stats_of_lower hlowered
  obtain ⟨values, hvalues⟩ := ShapeTable.exists_values_refine p.shapes lowered
  rw [hrefined, hvalues, of_lower hlowered]
  exact (Graph.live_lower hstats).2.with_values values

theorem outputs_ne_nil_of_prepare (h : compiler.prepare g c = .ok p) {s : Segment}
    (hs : s ∈ p.plan.segments) : s.outputs ≠ [] :=
  SegmentBuilder.outputs_ne_nil_of_partition (b := compiler.builder c p)
    (singleAssignment_of_prepare h) (live_of_prepare h) (of_prepare h).2.1 hs

/-- Where all nodes are one segment, what leaves it is given by the graph. -/
theorem outputs_ne_nil_of_wholeSegment (h : compiler.prepare g c = .ok p) {whole : Segment}
    (hwhole : wholeSegment p = .ok whole) : whole.outputs ≠ [] := by
  obtain ⟨s, hblocks, rfl⟩ := of_wholeSegment hwhole
  obtain ⟨hcover, -⟩ := Plan.validate_eq_ok.mp (of_prepare h).2.2
  have hs : s ∈ p.plan.segments := by simp [Plan.segments, hblocks]
  have hnodes : s.nodes = p.lowered.nodes.map Node.id := by
    rw [Plan.nodes, hblocks, List.flatMap_singleton] at hcover
    exact hcover
  have hboundary :=
    Plan.isBoundary_of_validate (of_prepare h).2.2 hs hnodes (List.Subset.refl _)
  obtain ⟨v, hv⟩ := List.exists_mem_of_ne_nil _ (outputs_ne_nil_of_prepare h hs)
  obtain ⟨-, hout | ⟨reader, hreader, houtside, -⟩⟩ := (hboundary.mem_outputs v).mp hv
  · exact List.ne_nil_of_mem hout
  · exact absurd hreader houtside

end Compiler

/-! ## Failures of compilations -/

open Outcome

/-- A compilation failed because a network marks no outputs. -/
def CompileError.NoOutputs : CompileError → Prop
  | .build cause => cause.NoOutputs
  | .engine cause => cause.fault = .noOutputs
  | _ => False

namespace Compiler

variable {compiler : Compiler Reference.accelerator} {g : Graph} {c : CompileConfig}

theorem failsWith_prepare : FailsWith (¬ CompileError.NoOutputs ·) (compiler.prepare g c) :=
  .bind (.mapError (.any _) fun _ _ => not_false) fun _ =>
    .bind (.mapError (.any _) fun _ _ => not_false) fun _ =>
      .bind (.map (.mapError (.any _) fun _ _ => not_false)) fun _ =>
        .bind (.mapError (.any _) fun _ _ => not_false) fun _ =>
          .bind (.mapError (.any _) fun _ _ => not_false) fun _ =>
            .bind (.mapError (.any _) fun _ _ => not_false) fun _ => .ok _

theorem failsWith_holding {α : Type} {run : Unit → Except CompileError α}
    (h : FailsWith (¬ CompileError.NoOutputs ·) (run ())) (state : DeviceState) (device : Device) :
    FailsWith (¬ CompileError.NoOutputs ·) (holding state device run).1 := by
  unfold holding
  split
  · exact .error not_false
  · exact h

theorem failsWith_linkHeld : FailsWith (¬ CompileError.NoOutputs ·) (compiler.linkHeld g c) := by
  refine .bind_of_ok failsWith_prepare fun p hp => ?_
  have hengines : FailsWith (¬ BuildError.NoOutputs ·)
      ((compiler.builder c p).compileAll [] p.plan.segments) :=
    SegmentBuilder.failsWith_compileAll [] fun s hs => outputs_ne_nil_of_prepare hp hs
  have hlink : FailsWith (¬ CompileError.NoOutputs ·) (compiler.link c p) :=
    .bind (hengines.mapError fun _ h => h) fun _ => .mapError (.any _) fun _ _ => not_false
  exact hlink.bind fun _ => .ok _

/-- The comparison with the graph cannot fail. -/
theorem failsWith_compile (state : DeviceState) :
    FailsWith (¬ CompileError.NoOutputs ·) (compiler.compile state g c).1 := by
  have hmade : FailsWith (¬ CompileError.NoOutputs ·)
      (holding state c.device fun _ => compiler.linkHeld g c).1 :=
    failsWith_holding failsWith_linkHeld state c.device
  exact hmade.map

theorem failsWith_convertToEngine (state : DeviceState) :
    FailsWith (¬ CompileError.NoOutputs ·) (compiler.convertToEngine state g c).1 := by
  refine failsWith_holding (.bind_of_ok failsWith_prepare fun p hp => ?_) state c.device
  refine .bind_of_ok (.mapError (.any _) fun _ _ => not_false) fun whole hwhole => ?_
  have hbuilt : FailsWith (¬ BuildError.NoOutputs ·)
      ((compiler.builder c p).compile [] whole).1 := by
    refine SegmentBuilder.failsWith_compile [] fun s hs => ?_
    obtain rfl := List.mem_singleton.mp hs
    exact outputs_ne_nil_of_wholeSegment hp (mapError_eq_ok.mp hwhole)
  exact .bind (hbuilt.mapError fun _ h => h) fun _ => .mapError (p := fun _ => False) (.ok _) nofun

end Compiler

/-! ## Top theorem -/

/-- Every segment of a plan has outputs, for any accelerator and any registry; so no build of such
a segment, no compilation and no conversion fails because a network marks no outputs. -/
theorem Compiler.segments_have_outputs (g : Graph) (c : CompileConfig) :
    (∀ {A : Accelerator} (compiler : Compiler A) (p : Prepared), compiler.prepare g c = .ok p →
      ∀ s ∈ p.plan.segments, s.outputs ≠ []) ∧
    ∀ compiler : Compiler Reference.accelerator,
      (∀ p, compiler.prepare g c = .ok p → ∀ s ∈ p.plan.segments, ∀ inputs e,
        (compiler.builder c p).build s inputs = .error e → ¬ e.NoOutputs) ∧
      (∀ state e, (compiler.compile state g c).1 = .error e → ¬ e.NoOutputs) ∧
      ∀ state e, (compiler.convertToEngine state g c).1 = .error e → ¬ e.NoOutputs :=
  ⟨fun _ _ hp _ hs => outputs_ne_nil_of_prepare hp hs, fun _ =>
    ⟨fun _ hp _ hs _ => SegmentBuilder.failsWith_build (outputs_ne_nil_of_prepare hp hs),
      failsWith_compile, failsWith_convertToEngine⟩⟩

theorem Compiler.segments_have_outputs_relay :
    Relay.compiler.prepare .relay Relay.config = .ok Relay.prepared ∧
      Relay.segment ∈ Relay.prepared.plan.segments ∧ Relay.segment.outputs ≠ [] ∧
      (∃ e, (Relay.compiler.builder Relay.config Relay.prepared).build Relay.segment [] =
        .error e ∧ ¬ e.NoOutputs) ∧
      (∃ e, (Relay.compiler.compile {} .relay {}).1 = .error e ∧ ¬ e.NoOutputs) ∧
      ∃ e, (Relay.compiler.convertToEngine {} .relay {}).1 = .error e ∧ ¬ e.NoOutputs := by
  have hmem : Relay.segment ∈ Relay.prepared.plan.segments := List.mem_cons_self
  obtain ⟨houtputs, hbuilds⟩ := segments_have_outputs .relay Relay.config
  obtain ⟨hbuild, -⟩ := hbuilds Relay.compiler
  obtain ⟨-, hcompile, hconvert⟩ := (segments_have_outputs .relay {}).2 Relay.compiler
  exact ⟨Relay.prepare_eq, hmem, houtputs Relay.compiler _ Relay.prepare_eq _ hmem,
    ⟨_, rfl, hbuild _ Relay.prepare_eq _ hmem [] _ rfl⟩, ⟨_, rfl, hcompile {} _ rfl⟩,
    ⟨_, rfl, hconvert {} _ rfl⟩⟩

end HybridGraph
