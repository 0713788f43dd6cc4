import HybridGraph.Proofs.Build.History
import HybridGraph.Proofs.Build.Sharing
import HybridGraph.Proofs.Build.Typed
import HybridGraph.Proofs.Compilation.Prepared
import HybridGraph.Proofs.Program.Embedding
/-!
# Graphs that are a single segment

The engine of a graph that is a single segment is built from the same nodes as the only engine of
the compiled program.  The program reads and gives what crosses the boundary of the segment, each
value once and in the order of the segment; the engine reads and gives what the graph does.  Both
run the same nodes on the same tensors:

    b.Twins s inputs inputs' e e' → b.ports s inputs key e = .ok made →
      ((Assembly.start b.graph [made]).call s made).program.run interpret ts = .ok outs →
        e'.execute ts = .ok outs' → (ts has the element types of e'.inputs) → outs' = outs   (agree)
-/

namespace HybridGraph

/-! ## Plans of a single segment -/

theorem Plan.blocks_of_single {plan : Plan} {s : Segment} (hsegments : plan.segments = [s])
    (hfallback : plan.fallbackNodes = []) : plan.blocks = [.segment s] := by
  obtain ⟨blocks⟩ := plan
  cases blocks with
  | nil => cases hsegments
  | cons first rest =>
    cases first with
    | fallback id reason => cases hfallback
    | segment s' =>
      obtain ⟨rfl, hrest⟩ := List.cons.inj hsegments
      cases rest with
      | nil => rfl
      | cons next rest =>
        cases next with
        | fallback id reason => cases hfallback
        | segment s' => cases hrest

namespace Graph.IsBoundary

variable {g : Graph} {inputs outputs : List ValueId}

/-- What enters all nodes are graph inputs. -/
theorem inputs_subset (h : g.IsBoundary g.nodes inputs outputs) (hg : g.SingleAssignment) :
    inputs ⊆ g.inputs := by
  intro v hv
  have hsplit : g.nodes = [] ++ (g.nodes ++ []) := by simp
  have hdefined := defined_of_enters hg hsplit ((h.mem_inputs v).mp hv)
  simpa [definedBy] using hdefined

/-- A graph output leaves the nodes or is an input. -/
theorem mem_or_mem_inputs (h : g.IsBoundary g.nodes inputs outputs) (hg : g.SingleAssignment)
    {v : ValueId} (hv : v ∈ g.outputs) : v ∈ outputs ∨ v ∈ g.inputs := by
  rcases mem_definedBy.mp (hg.outputs v hv) with hin | hout
  · exact .inr hin
  · exact .inl ((h.mem_outputs v).mpr ⟨hout, .inl hv⟩)

end Graph.IsBoundary

/-- What is an input is not defined by a node. -/
theorem Graph.SingleAssignment.notMem_produced {g : Graph} (hg : g.SingleAssignment) {v : ValueId}
    (hv : v ∈ g.inputs) : v ∉ g.nodes.flatMap Node.outputs := by
  intro hout
  obtain ⟨node, hn, hdef⟩ := List.mem_flatMap.mp hout
  exact hg.nodes.not_mem_inputs hn hdef hv

/-! ## One segment alone -/

variable {A : Accelerator}

/-- A segment that is compiled alone is built from what enters it. -/
theorem SegmentBuilder.exists_of_compile {b : SegmentBuilder A} {s : Segment}
    {made : SegmentEngine A} (h : (b.compile [] s).1 = .ok made) :
    ∃ inputs, b.boundary s = .ok inputs ∧ b.build s inputs = .ok made.engine ∧
      b.ports s inputs made.key made.engine = .ok made := by
  have hempty : b.compile [] s = b.compile (b.cacheAfter []) s := rfl
  rw [hempty, compile_cacheAfter] at h
  obtain ⟨⟨inputs, key⟩, hresolve, h⟩ := Outcome.bind_eq_ok.mp h
  obtain ⟨engine, hbuild, hports⟩ := Outcome.bind_eq_ok.mp h
  obtain ⟨_, hinputs, hkey⟩ := Outcome.bind_eq_ok.mp hresolve
  obtain ⟨_, -, hkey⟩ := Outcome.bind_eq_ok.mp hkey
  obtain ⟨rfl, rfl⟩ := Prod.mk.inj (Outcome.pure_eq_ok.mp hkey)
  obtain ⟨-, rfl⟩ := ports_eq_ok.mp hports
  exact ⟨_, hinputs, Outcome.mapError_eq_ok.mp hbuild, hports⟩

/-- A program of one segment is the call of its engine. -/
theorem HybridProgram.eq_of_assemble {g : Graph} {s : Segment} {engine : SegmentEngine A}
    {program : HybridProgram A} (h : assemble g ⟨[.segment s]⟩ [engine] = .ok program) :
    program = ((Assembly.start g [engine]).call s engine).program := by
  obtain ⟨a, hfold, -, rfl⟩ := assemble_eq_ok.mp h
  obtain ⟨next, hnext, hlast⟩ := Outcome.foldlM_cons_eq_ok.mp hfold
  obtain rfl := Outcome.pure_eq_ok.mp hlast
  rw [Assembly.addBlock, Assembly.callSegment_eq] at hnext
  split at hnext
  · next found hfound =>
    obtain rfl := List.mem_singleton.mp (List.mem_of_find?_eq_some hfound)
    exact congrArg Assembly.program (Except.ok.inj hnext).symm
  · cases hnext

theorem HybridProgram.singleCall_of_segment {g : Graph} {s : Segment} {engine : SegmentEngine A}
    (hinputs : engine.inputs.map EnginePort.value = s.inputs) (houtputs : s.outputs.Nodup) :
    ((Assembly.start g [engine]).call s engine).program.SingleCall
      ((Assembly.start g [engine]).nextCall s) engine where
  nodes := rfl
  kind := rfl
  target := ⟨0, engineOf_eq_ok.mpr ⟨engineNumber_engineCall _ _ _ _, rfl⟩⟩
  inputs := hinputs
  outputs := houtputs

/-! ## Two engines of one segment -/

/-- The segment with the inputs and outputs of the graph as its boundary. -/
def Graph.wholeSegment (g : Graph) (s : Segment) : Segment :=
  { s with inputs := g.inputs, outputs := g.outputs }

/-- The nodes of a graph are one segment, and engines are built for it with the boundary of the
nodes and with that of the graph. -/
structure SegmentBuilder.Twins (b : SegmentBuilder Reference.accelerator) (s : Segment)
    (inputs inputs' : List BoundaryInput) (e e' : Engine) : Prop where
  form : b.graph.SingleAssignment
  nodes : s.nodes.filterMap b.graph.node? = b.graph.nodes
  boundary : b.graph.IsBoundary b.graph.nodes s.inputs s.outputs
  known : ∀ v ∈ s.outputs, b.graph.knownType? b.shapes v = b.graph.dtype? v
  enters : b.boundary s = .ok inputs
  enters' : b.boundary (b.graph.wholeSegment s) = .ok inputs'
  builds : b.build s inputs = .ok e
  builds' : b.build (b.graph.wholeSegment s) inputs' = .ok e'

/-- Partners of partners, over the pairs of the first two. -/
theorem forall₂_zip_of_forall₂ {α β γ : Type} {p : α → β → Prop} {q : β → γ → Prop} {xs : List α}
    {ys : List β} {zs : List γ} (hp : List.Forall₂ p xs ys) (hq : List.Forall₂ q ys zs) :
    List.Forall₂ (fun (entry : α × β) z => p entry.1 entry.2 ∧ q entry.2 z) (xs.zip ys) zs := by
  induction hp generalizing zs with
  | nil =>
    obtain rfl := List.forall₂_nil_left_iff.mp hq
    exact .nil
  | @cons x y xs ys hxy _ ih =>
    obtain ⟨z, zs, hyz, hrest, rfl⟩ := List.forall₂_cons_left_iff.mp hq
    exact .cons ⟨hxy, hyz⟩ (ih hrest)

namespace SegmentBuilder.Twins

variable {b : SegmentBuilder Reference.accelerator} {s : Segment}
  {inputs inputs' : List BoundaryInput} {e e' : Engine} {key : EngineKey}
  {made : SegmentEngine Reference.accelerator}

theorem contracted (hr : b.registry.IsPart) (h : b.Twins s inputs inputs' e e') :
    HybridProgram.Contracted (A := Reference.accelerator) e' :=
  fun _ _ => dtypes_of_execute hr h.builds'

/-- The engine of the graph reads what the graph declares for its inputs, -/
theorem dtypes_inputs (hr : b.registry.IsPart) (hwide : b.config.truncateWide = false)
    (h : b.Twins s inputs inputs' e e') :
    List.Forall₂ (fun v (binding : EngineBinding) => ∀ d, b.graph.dtype? v = some d →
      binding.dtype = d) b.graph.inputs e'.inputs := by
  have henters := Outcome.mapM_eq_ok.mp (Outcome.mapError_eq_ok.mp h.enters')
  refine Outcome.forall₂_of_forall₂ henters.flip (inputs_of_build hr h.builds') ?_
  intro input _ v binding hentered hdtype d hd
  rw [hwide] at hentered
  exact hdtype.trans (engine_of_boundaryInput hentered hd)

/-- and gives what the graph declares for its outputs. -/
theorem dtypes_outputs (hr : b.registry.IsPart) (hwide : b.config.truncateWide = false)
    (h : b.Twins s inputs inputs' e e') :
    List.Forall₂ (fun v (binding : EngineBinding) => ∀ d, b.graph.dtype? v = some d →
      binding.dtype = d) b.graph.outputs e'.outputs :=
  dtypes_of_build hr hwide h.enters' h.builds'

/-- What the program of the segment is given has the element types that its engine reads, where it
fits the contract of the engine of the graph. -/
theorem plain (hr : b.registry.IsPart) (hwide : b.config.truncateWide = false)
    (h : b.Twins s inputs inputs' e e') (hmade : b.ports s inputs key e = .ok made)
    {ts : List Tensor} {start : Bindings}
    (hstart : List.Forall₂ (fun v t => start.tensor? v = some t) b.graph.inputs ts)
    (hfits : List.Forall₂ (fun (binding : EngineBinding) (t : Tensor) => t.dtype = binding.dtype)
      e'.inputs ts) : made.Plain start := by
  obtain ⟨-, rfl⟩ := ports_eq_ok.mp hmade
  constructor
  · intro port hport t ht
    obtain ⟨input, hinput, rfl⟩ := List.mem_map.mp hport
    have hvalues : inputs'.map BoundaryInput.value = b.graph.inputs := values_of_boundary h.enters'
    rw [← hvalues, List.forall₂_map_left_iff] at hstart
    have hread := Outcome.forall₂_of_forall₂ (inputs_of_build hr h.builds').flip hfits
      fun binding _ (entry : BoundaryInput) t (hdtype : binding.dtype = entry.engine) ht =>
        ht.trans hdtype
    obtain ⟨hmem, hsame⟩ := alike_of_boundary h.enters h.enters'
      (h.boundary.inputs_subset h.form) input hinput
    obtain ⟨input', hinput', hvalue⟩ := List.mem_map.mp hmem
    obtain rfl := hsame input' hinput' hvalue
    obtain ⟨t', -, hbound, hdtype⟩ :=
      Outcome.exists_of_forall₂ (Outcome.forall₂_and hstart hread) hinput'
    obtain rfl := Option.some.inj (ht.symm.trans hbound)
    exact hdtype
  · intro operands results hrun
    have hresults := forall₂_zip_of_forall₂ (dtypes_of_build hr hwide h.enters h.builds)
      (dtypes_of_execute hr h.builds hrun)
    rw [List.forall₂_map_left_iff, List.forall₂_iff_zip]
    refine ⟨hresults.length_eq, fun {entry t} hmem d hd => ?_⟩
    obtain ⟨hdeclared, hdtype⟩ := (List.forall₂_iff_zip.mp hresults).2 hmem
    have hout : entry.1 ∈ s.outputs := (List.of_mem_zip (List.of_mem_zip hmem).1).1
    have hd : b.graph.knownType? b.shapes entry.1 = some d := hd
    rw [h.known entry.1 hout] at hd
    exact hdtype.trans (hdeclared d hd)

/-- The program of the segment and the engine of the graph give the same tensors. -/
theorem agree (hr : b.registry.IsPart) (hwide : b.config.truncateWide = false)
    (h : b.Twins s inputs inputs' e e') (hmade : b.ports s inputs key e = .ok made)
    {interpret : Interpreter} {ts outs outs' : List Tensor}
    (hrun : ((Assembly.start b.graph [made]).call s made).program.run interpret ts = .ok outs)
    (hrun' : e'.execute ts = .ok outs')
    (hfits : List.Forall₂ (fun (binding : EngineBinding) (t : Tensor) => t.dtype = binding.dtype)
      e'.inputs ts) : outs' = outs := by
  have hports := (ports_eq_ok.mp hmade).2
  have hins : made.inputs.map EnginePort.value = s.inputs := by
    rw [← hports, ← values_of_boundary h.enters, List.map_map]
    rfl
  have hengine : made.engine = e := by rw [← hports]
  have hnodup : s.outputs.Nodup :=
    h.boundary.production.nodup h.form.nodes.nodup_flatMap_outputs
  have hgiven : ∀ {start : Bindings}, ((Assembly.start b.graph [made]).call s
      made).program.graph.bindInputs ts = .ok start →
      List.Forall₂ (fun v t => start.tensor? v = some t) b.graph.inputs ts :=
    fun hstart => Graph.tensor?_of_bindInputs h.form.distinct hstart
  obtain ⟨start, bound, operands, results, hstart, hoperands, hresults, hcalled, hkept, houts⟩ :=
    (HybridProgram.singleCall_of_segment hins hnodup).exists_of_run hrun
      fun start hstart => h.plain hr hwide hmade (hgiven hstart) hfits
  rw [hengine] at hresults
  obtain ⟨result?, hsegment, hwhole, hpassed⟩ := exists_of_executes hr
    (s := s) (w := b.graph.wholeSegment s) rfl (h.boundary.inputs_subset h.form) h.enters h.enters'
    h.builds h.builds' hoperands (hgiven hstart) hresults hrun'
  -- a graph output is a result of the call or was given
  have hfound : ∀ v ∈ b.graph.outputs, Bindings.tensor? bound v = result? v := by
    intro v hv
    by_cases hout : v ∈ s.outputs
    · obtain ⟨t, -, hcall, hresult⟩ :=
        Outcome.exists_of_forall₂ (Outcome.forall₂_and hcalled hsegment) hout
      exact hcall.trans hresult.symm
    · have hin := (h.boundary.mem_or_mem_inputs h.form hv).resolve_left hout
      rw [hkept v hout, hpassed v hin]
      rw [h.nodes]
      exact h.form.notMem_produced hin
  refine eq_of_forall₂_some hwhole ?_
  rw [List.forall₂_iff_zip] at houts ⊢
  refine ⟨houts.1, fun {v t} hmem => ?_⟩
  rw [← hfound v (List.of_mem_zip hmem).1]
  exact houts.2 hmem

end SegmentBuilder.Twins

end HybridGraph
