import HybridGraph.Engine.Reference
import HybridGraph.Proofs.Build.History
import HybridGraph.Proofs.Build.Networks
import HybridGraph.Proofs.Build.Planned
/-!
# No internal errors on plans

A build may report what only a compiler at odds with itself would: a value without a type, a shape,
a number or a tensor, a member that is not in the graph, or an internal error of a converter
(`BuildFault.IsInternal`).  On segments of plans it never does, whatever else was compiled for plans
of the graph before and whatever the accelerator answers:

    b.Planned s run → b.boundary s = .error e → ¬ e.fault.IsInternal
    b.Planned s run → b.build s inputs = .error e → ¬ e.fault.IsInternal
    (b.compile (b.cacheAfter history) s).1 = .error e → ¬ e.fault.IsInternal
-/

namespace HybridGraph

variable {A : Accelerator}

/-- Something that a build reports only if its parts disagree. -/
def BuildFault.IsInternal : BuildFault → Prop
  | .unknownType _ | .unknownShape _ | .foreignMember | .unknownMember _ | .unbound _
  | .neverConverted _ => True
  | .conversion cause => cause.cause.IsInternal
  | .wideInput .. | .outputCount .. | .engine _ => False

/-! ## Inputs -/

namespace Graph

variable {g : Graph} {shapes : ShapeTable} {truncateWide : Bool} {v : ValueId}

theorem Bindable.isSome_knownType? (h : g.Bindable shapes v) : (g.knownType? shapes v).isSome := by
  unfold knownType?
  rcases h with h | ⟨declared, hdeclared, hdtype, -⟩
  · rw [Option.isSome_or, Option.isSome_map, h, Bool.or_true]
  · have hdtype? : g.dtype? v = declared.dtype := by rw [dtype?, hdeclared, Option.bind_some]
    rw [Option.isSome_or, hdtype?, hdtype, Bool.true_or]

theorem Bindable.isSome_knownShape? (h : g.Bindable shapes v) :
    (g.knownShape? shapes v).isSome := by
  unfold knownShape?
  split
  · rfl
  · next hnone =>
    rcases h with h | ⟨declared, hdeclared, -, hextents⟩
    · rw [hnone] at h
      cases h
    · rw [Option.isSome_map, hdeclared, Option.bind_some, hextents]

theorem not_isInternal_of_boundaryInput (h : g.Bindable shapes v) {fault : BuildFault}
    (he : g.boundaryInput shapes truncateWide v = .error fault) : ¬ fault.IsInternal := by
  obtain ⟨declared, hdeclared⟩ := Option.isSome_iff_exists.mp h.isSome_knownType?
  obtain ⟨shape, hshape⟩ := Option.isSome_iff_exists.mp h.isSome_knownShape?
  simp only [boundaryInput, hdeclared, hshape] at he
  rcases Outcome.bind_eq_error.mp he with he | ⟨engine, -, he⟩
  · unfold engineType at he
    split at he
    · cases he
    · split at he
      · cases he
      · cases he
        exact not_false
  · cases he

end Graph

namespace SegmentBuilder

variable {b : SegmentBuilder A} {s : Segment} {run : List Node} {inputs : List BoundaryInput}

namespace Planned

theorem boundary_error (h : b.Planned s run) {e : BuildError} (he : b.boundary s = .error e) :
    ¬ e.fault.IsInternal := by
  obtain ⟨fault, hfault, rfl⟩ := Outcome.mapError_eq_error.mp he
  obtain ⟨v, hv, hvalue⟩ := Outcome.exists_of_mapM_eq_error hfault
  exact Graph.not_isInternal_of_boundaryInput (h.known v hv) hvalue

/-! ## Keys -/

/-- A segment of a plan has a fingerprint. -/
theorem exists_key (h : b.Planned s run) (hinputs : b.boundary s = .ok inputs) :
    ∃ key, b.key s inputs = .ok key := by
  have hvalues := values_of_boundary hinputs
  obtain ⟨entries, hentries⟩ := h.reads.exists_recorded
  have hfingerprint : Fingerprint.ofSegment b.graph s inputs = .ok ⟨_, entries, _⟩ :=
    (Fingerprint.ofSegment_eq_ok h.resolves (hvalues ▸ h.distinct)).mpr
      ⟨hvalues ▸ hentries, rfl, rfl⟩
  exact ⟨_, by rw [key, hfingerprint]; rfl⟩

/-! ## Networks -/

theorem not_isInternal_of_addInput {segment : Nat} {state : EmitState A}
    {entry : BoundaryInput × Nat} {e : BuildError} (he : addInput segment state entry = .error e) :
    ¬ e.fault.IsInternal := by
  rcases Outcome.bind_eq_error.mp he with hinput | ⟨_, -, hbind⟩
  · obtain ⟨cause, -, rfl⟩ := Outcome.mapError_eq_error.mp hinput
    exact not_false
  · cases hbind

/-- A supported node of the graph whose operands are bound. -/
theorem not_isInternal_of_addMember (hr : b.registry.IsPart) {segment : Nat} {state : EmitState A}
    {id : NodeId} {node : Node} (hnode : b.graph.node? id = some node)
    (hsupport : b.registry.support b.graph node = .ok ()) (hbinds : state.Binds node.inputs)
    {e : BuildError} (he : b.addMember segment state id = .error e) : ¬ e.fault.IsInternal := by
  simp only [addMember, hnode] at he
  rcases hconvert : b.registry.convert b.graph b.config.truncateWide state node with ⟨result, next⟩
  rw [hconvert] at he
  rcases Outcome.bind_eq_error.mp he with hresult | ⟨_, -, hnext⟩
  · obtain ⟨cause, rfl, rfl⟩ := Outcome.mapError_eq_error.mp hresult
    exact Registry.not_isInternal_of_convert hr hsupport hbinds hconvert
  · cases hnext

theorem not_isInternal_of_addOutput {segment : Nat} {state : EmitState A} {v : ValueId}
    {number : Nat} (hv : (state.tensor? v).isSome) {e : BuildError}
    (he : addOutput segment state (v, number) = .error e) : ¬ e.fault.IsInternal := by
  obtain ⟨tensor, htensor⟩ := Option.isSome_iff_exists.mp hv
  simp only [addOutput, htensor] at he
  rcases Outcome.bind_eq_error.mp he with hmark | ⟨_, -, hnext⟩
  · obtain ⟨cause, -, rfl⟩ := Outcome.mapError_eq_error.mp hmark
    exact not_false
  · cases hnext

/-- Supported nodes that read what is bound when it is their turn. -/
theorem not_isInternal_of_addMembers (hr : b.registry.IsPart) {ids : List NodeId}
    (hrun : b.graph.Resolves ids run)
    (hsupported : ∀ node ∈ run, b.registry.support b.graph node = .ok ()) {values : List ValueId}
    (hreads : ReadsInOrder values run) {segment : Nat} {state : EmitState A}
    (hbinds : state.Binds values) {e : BuildError}
    (he : ids.foldlM (b.addMember segment) state = .error e) : ¬ e.fault.IsInternal := by
  induction hrun generalizing values state with
  | nil => cases he
  | @cons id node ids run hnode hrun ih =>
    obtain ⟨hnow, hlater⟩ := hreads.cons
    obtain ⟨hsupport, hsupported⟩ := List.forall_mem_cons.mp hsupported
    rw [List.foldlM_cons] at he
    rcases Outcome.bind_eq_error.mp he with hfirst | ⟨next, hfirst, hrest⟩
    · exact not_isInternal_of_addMember hr hnode hsupport (fun v hv => hbinds v (hnow hv)) hfirst
    · obtain ⟨other, hother, hconvert⟩ := addMember_eq_ok.mp hfirst
      obtain rfl := Option.some.inj (hnode.symm.trans hother)
      have hextends := Registry.extends_of_convert hr hconvert
      exact ih hsupported hlater (hextends.binds hbinds) hrest

theorem network_error (hr : b.registry.IsPart) (h : b.Planned s run)
    (hvalues : inputs.map BoundaryInput.value = s.inputs) {e : BuildError}
    (he : b.network s inputs = .error e) : ¬ e.fault.IsInternal := by
  rcases Outcome.bind_eq_error.mp he with hinputs | ⟨entered, hentered, hrest⟩
  · obtain ⟨-, entry, -, state, -, -, hentry⟩ := Outcome.exists_of_foldlM_eq_error hinputs
    exact not_isInternal_of_addInput hentry
  have hbinds : entered.Binds s.inputs := by
    have hbound := extends_of_addInputs hentered
    rw [hvalues] at hbound
    have hnil : (EmitState.start A).Binds [] := nofun
    exact hbound.binds hnil
  rcases Outcome.bind_eq_error.mp hrest with hmembers | ⟨converted, hconverted, houtputs⟩
  · exact not_isInternal_of_addMembers hr h.resolves h.supported h.reads hbinds hmembers
  · obtain ⟨front, ⟨v, number⟩, back, state, hsplit, hfront, hv⟩ :=
      Outcome.exists_of_foldlM_eq_error houtputs
    have hmem : v ∈ s.outputs := by
      have hentry : (v, number) ∈ s.outputs.zipIdx := by
        rw [hsplit]
        exact List.mem_append_right _ List.mem_cons_self
      exact List.fst_mem_of_mem_zipIdx hentry
    have hall := (extends_of_addMembers hr h.resolves hconverted).binds hbinds
    have hkept := hall.of_bound_eq (bound_of_addOutputs hfront)
    exact not_isInternal_of_addOutput (hkept v (List.mem_append_right _ (h.defined hmem))) hv

/-- Building a segment of a plan raises no internal error. -/
theorem build_error (hr : b.registry.IsPart) (h : b.Planned s run)
    (hinputs : b.boundary s = .ok inputs) {e : BuildError} (he : b.build s inputs = .error e) :
    ¬ e.fault.IsInternal := by
  rcases Outcome.bind_eq_error.mp he with hnetwork | ⟨state, -, hbuild⟩
  · exact network_error hr h (values_of_boundary hinputs) hnetwork
  · obtain ⟨cause, -, rfl⟩ := Outcome.mapError_eq_error.mp hbuild
    exact not_false

end Planned

theorem not_isInternal_of_ports {key : EngineKey} {engine : A.Engine} {e : BuildError}
    (he : b.ports s inputs key engine = .error e) : ¬ e.fault.IsInternal := by
  unfold ports at he
  dsimp only at he
  split at he
  · cases he
    exact not_false
  · cases he

/-! ## Top theorem -/

/-- A segment of some plan that the partition makes of the graph, with the registry and the shapes
that the builder has. -/
def InPlan (b : SegmentBuilder A) (s : Segment) : Prop :=
  ∃ options plan, b.graph.partition b.registry options (some b.shapes) = .ok plan ∧
    s ∈ plan.segments

/-- Segments of plans compile without internal errors, whatever was compiled for plans before. -/
theorem compile_not_isInternal {b : SegmentBuilder A} (hverify : b.graph.verify = .ok ())
    (hr : b.registry.IsPart) {s : Segment} (hs : b.InPlan s) {history : List Segment}
    (hhistory : ∀ s' ∈ history, b.InPlan s') :
    ∀ e, (b.compile (b.cacheAfter history) s).1 = .error e → ¬ e.fault.IsInternal := by
  have hplanned : ∀ s, b.InPlan s → ∃ run, b.Planned s run := by
    rintro s ⟨options, plan, hplan, hs⟩
    exact planned_of_partition (Graph.verify_eq_ok.mp hverify).1 hplan hs
  intro e he
  rcases exists_of_compile_error he with hresolve | ⟨inputs, key, -, hbuild⟩
  · obtain ⟨run, hrun⟩ := hplanned s hs
    rcases Outcome.bind_eq_error.mp hresolve with hboundary | ⟨inputs, hinputs, hkey⟩
    · exact hrun.boundary_error hboundary
    · obtain ⟨key, hexists⟩ := hrun.exists_key hinputs
      rw [hexists] at hkey
      cases hkey
  · rcases hbuild with ⟨s', hs', inputs', cause, hresolve', hcause, rfl⟩ | ⟨engine, hports⟩
    · have hin : b.InPlan s' := by
        rcases List.mem_append.mp hs' with hs' | hs'
        · exact hhistory s' hs'
        · exact List.mem_singleton.mp hs' ▸ hs
      obtain ⟨run, hrun⟩ := hplanned s' hin
      obtain ⟨entered, hentered, hkey⟩ := Outcome.bind_eq_ok.mp hresolve'
      obtain ⟨other, -, hpair⟩ := Outcome.bind_eq_ok.mp hkey
      obtain ⟨rfl, -⟩ := Prod.mk.inj (Outcome.pure_eq_ok.mp hpair)
      have hnot : ¬ cause.fault.IsInternal := hrun.build_error hr hentered hcause
      exact hnot
    · exact not_isInternal_of_ports hports

end SegmentBuilder

/-! ## An example -/

/-- The builder of `Graph.activations`. -/
def SegmentBuilder.activations : SegmentBuilder Reference.accelerator :=
  ⟨Registry.standard Reference.accelerator, {}, Graph.activations, []⟩

/-- Engines may take both nodes of `Graph.activations`. -/
theorem Graph.admissible_activations :
    Graph.activations.Admissible (Registry.standard Reference.accelerator) ⟨1, [], [], false⟩
      (some []) {id | id ∈ Graph.activations.nodeIds} := by
  have hnodes : ∀ node ∈ Graph.activations.nodes,
      node = ⟨⟨0⟩, .relu, [⟨0⟩], [⟨1⟩], .empty, none⟩ ∨
        node = ⟨⟨1⟩, .tanh, [⟨1⟩], [⟨2⟩], .empty, none⟩ := by
    simp [Graph.activations]
  refine ⟨fun id hid => ?_, fun node hn _ hkind => ?_, fun run hrun => ?_, fun run hrun v hv => ?_,
    fun run hrun v hv => ?_⟩
  · obtain ⟨node, hn, rfl⟩ := List.mem_map.mp hid
    refine ⟨node, hn, ⟨?_, by simp, by simp⟩, rfl⟩
    rcases hnodes node hn with rfl | rfl
    · rfl
    · rfl
  · rcases hnodes node hn with rfl | rfl
    · cases hkind
    · cases hkind
  · exact List.length_pos_iff.mpr hrun.nonempty
  · obtain ⟨node, hn, hread⟩ := hv.1
    have htype : Graph.activations.tensorType? v = some (.of .f32 [2]) := by
      rcases hnodes node (hrun.subset hn) with rfl | rfl
      · obtain rfl := List.mem_singleton.mp hread
        rfl
      · obtain rfl := List.mem_singleton.mp hread
        rfl
    exact ⟨by rw [Graph.isTensor, htype]; rfl, fun shapes _ => .inr ⟨_, htype, rfl, rfl⟩⟩
  · obtain ⟨node, hn, hdef⟩ := hv.1
    rcases hnodes node (hrun.subset hn) with rfl | rfl
    · obtain rfl := List.mem_singleton.mp hdef
      rfl
    · obtain rfl := List.mem_singleton.mp hdef
      rfl

theorem SegmentBuilder.exists_inPlan_activations : ∃ s, SegmentBuilder.activations.InPlan s := by
  obtain ⟨index, hindex⟩ := GraphIndex.exists_build Graph.singleAssignment_activations
  have hsettled : (Graph.activations.terrain index (some [])).Settled
      (Registry.standard Reference.accelerator) ⟨1, [], [], false⟩ (Graph.activations.settled
        (Registry.standard Reference.accelerator) ⟨1, [], [], false⟩ index (some [])) :=
    Graph.settled_of_build hindex
  have hgreatest := isGreatest_of_stuck hsettled.sound.form hsettled.reached hsettled.stuck
  have hid : (⟨0⟩ : NodeId) ∈ {id | id ∈ Graph.activations.nodeIds} := List.mem_cons_self
  have hfirst := hgreatest.2 Graph.admissible_activations hid
  rw [← Terrain.engineNodes_plan hsettled.sound] at hfirst
  obtain ⟨s, hs, -⟩ := hfirst
  exact ⟨s, ⟨1, [], [], false⟩, _, Graph.partition_eq_ok hindex rfl, hs⟩

theorem SegmentBuilder.compile_not_isInternal_activations :
    ∃ s, SegmentBuilder.activations.InPlan s ∧
      ∀ e, (SegmentBuilder.activations.compile (SegmentBuilder.activations.cacheAfter [s]) s).1 =
        .error e → ¬ e.fault.IsInternal := by
  obtain ⟨s, hs⟩ := SegmentBuilder.exists_inPlan_activations
  refine ⟨s, hs, SegmentBuilder.compile_not_isInternal verify_activations
    Registry.isPart_standard hs fun s' hs' => ?_⟩
  exact List.mem_singleton.mp hs' ▸ hs

end HybridGraph
