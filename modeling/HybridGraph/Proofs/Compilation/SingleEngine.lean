import HybridGraph.Proofs.Compilation.Twins
import HybridGraph.Proofs.Engine.Stored
import HybridGraph.Proofs.Lowering.Simplification
/-!
# Single engines and compiled programs

For a graph that is a single segment there are two ways to run it: the compiled program, and the
program that the bytes of its engine are embedded into.  Where no 64-bit value is narrowed and the
engine is loaded as it was saved, both give the same tensors in the same order:

    (compiler.compile state g c).1 = .ok compilation →
      (compiler.convertToEngine state' g c).1 = .ok bytes →
        ∃ p, HybridProgram.embed Reference.accelerator bytes device = .ok p ∧ … ∧
          ∀ interpret interpret' inputs outs outs',
            compilation.program.run interpret inputs = .ok outs →
              p.run interpret' inputs = .ok outs' → outs' = outs               (embedding_agrees)
-/

namespace HybridGraph

/-! ## The engine of a graph -/

namespace Compiler

variable {A : Accelerator} (compiler : Compiler A)

/-- The engine of a graph that is a single segment. -/
def wholeEngine (g : Graph) (c : CompileConfig) : Except CompileError A.Engine := do
  let p ← compiler.prepare g c
  let whole ← (wholeSegment p).mapError .config
  let compiled ← ((compiler.builder c p).compile [] whole).1.mapError .build
  return compiled.engine

variable {compiler} {g : Graph} {c : CompileConfig}

/-- A conversion saves the engine of the graph. -/
theorem convertHeld_eq : compiler.convertHeld g c =
    compiler.wholeEngine g c >>= fun engine => (A.save engine).mapError .engine := by
  unfold convertHeld wholeEngine
  simp only [bind_assoc, pure_bind]

/-- Graphs are converted if all their nodes are one segment. -/
theorem of_wholeSegment {p : Prepared} {whole : Segment} (h : wholeSegment p = .ok whole) :
    ∃ s, p.plan.blocks = [.segment s] ∧ whole = p.lowered.wholeSegment s := by
  unfold wholeSegment at h
  split at h
  · next s hsegments hfallback =>
    exact ⟨s, Plan.blocks_of_single hsegments hfallback, (Except.ok.inj h).symm⟩
  · cases h

/-- A program that is linked from a single segment calls its engine. -/
theorem of_link {p : Prepared} {s : Segment} (hblocks : p.plan.blocks = [.segment s])
    {program : HybridProgram A} (h : compiler.link c p = .ok program) : ∃ made,
      ((compiler.builder c p).compile [] s).1 = .ok made ∧
        program = ((Assembly.start p.lowered [made]).call s made).program := by
  obtain ⟨engines, hengines, hassemble⟩ := Outcome.bind_eq_ok.mp h
  have hsegments : p.plan.segments = [s] := by
    rw [Plan.segments, hblocks]
    rfl
  rw [Outcome.mapError_eq_ok, hsegments] at hengines
  obtain ⟨made, hmade, hengines⟩ := Outcome.bind_eq_ok.mp hengines
  obtain rfl := Outcome.pure_eq_ok.mp hengines
  have hplan : p.plan = ⟨[.segment s]⟩ := congrArg Plan.mk hblocks
  rw [Outcome.mapError_eq_ok, hplan] at hassemble
  exact ⟨made, hmade, HybridProgram.eq_of_assemble hassemble⟩

/-- A graph that is compiled and converted is built twice from one segment. -/
theorem exists_twins {compiler : Compiler Reference.accelerator} {state : DeviceState}
    {compilation : Compilation Reference.accelerator} {engine : Engine}
    (hcompile : (compiler.compile state g c).1 = .ok compilation)
    (hwhole : compiler.wholeEngine g c = .ok engine) :
    ∃ p s inputs inputs' made, compiler.prepare g c = .ok p ∧ compilation.lowered = p.lowered ∧
      (compiler.builder c p).Twins s inputs inputs' made.engine engine ∧
      (compiler.builder c p).ports s inputs made.key made.engine = .ok made ∧
      compilation.program = ((Assembly.start p.lowered [made]).call s made).program := by
  obtain ⟨p, hp, hlink, hlowered, -⟩ := of_compile hcompile
  obtain ⟨p', hp', hwhole⟩ := Outcome.bind_eq_ok.mp hwhole
  obtain rfl := Except.ok.inj (hp.symm.trans hp')
  obtain ⟨whole, hsegment, hwhole⟩ := Outcome.bind_eq_ok.mp hwhole
  obtain ⟨compiled, hcompiled, hengine⟩ := Outcome.bind_eq_ok.mp hwhole
  obtain rfl := Outcome.pure_eq_ok.mp hengine
  obtain ⟨s, hblocks, rfl⟩ := of_wholeSegment (Outcome.mapError_eq_ok.mp hsegment)
  obtain ⟨made, hmade, hprogram⟩ := of_link hblocks hlink
  obtain ⟨inputs, henters, hbuilds, hports⟩ := SegmentBuilder.exists_of_compile hmade
  obtain ⟨inputs', henters', hbuilds', -⟩ :=
    SegmentBuilder.exists_of_compile (Outcome.mapError_eq_ok.mp hcompiled)
  obtain ⟨-, hpartition, hvalid⟩ := of_prepare hp
  have hform := singleAssignment_of_prepare hp
  have hs : s ∈ p.plan.segments := by
    rw [Plan.segments, hblocks]
    exact List.mem_cons_self
  have hnodes : s.nodes = p.lowered.nodes.map Node.id := by
    have hcover := (Plan.validate_eq_ok.mp hvalid).1
    rw [Plan.nodes, hblocks, List.flatMap_singleton] at hcover
    exact hcover
  refine ⟨p, s, inputs, inputs', made, hp, hlowered, ?_, hports, hprogram⟩
  exact {
    form := hform
    nodes := by
      rw [hnodes]
      exact Graph.filterMap_node?_map_id hform (List.Subset.refl _)
    boundary := Plan.isBoundary_of_validate hvalid hs hnodes (List.Subset.refl _)
    known := fun v hv => knownType?_of_prepare hp
      (SegmentBuilder.isTensor_of_partition (b := compiler.builder c p) hform hpartition hs hv)
    enters := henters
    enters' := henters'
    builds := hbuilds
    builds' := hbuilds' }

end Compiler

/-! ## Types of the embedded program -/

/-- Values of one graph have the element types that are declared for values of another, one by
one. -/
def Graph.TypedAs (g g' : Graph) (vs ws : List ValueId) : Prop :=
  List.Forall₂ (fun v w => ∀ d, g.dtype? v = some d → g'.dtype? w = some d) vs ws

theorem Graph.TypedAs.of_bindings {g g' : Graph} {vs ws : List ValueId}
    {bindings : List EngineBinding}
    (h : List.Forall₂ (fun v (binding : EngineBinding) => ∀ d, g.dtype? v = some d →
      binding.dtype = d) vs bindings)
    (h' : List.Forall₂ (fun w (binding : EngineBinding) => g'.tensorType? w =
      some ⟨some binding.dtype, some binding.shape.dimensions⟩) ws bindings) :
    g.TypedAs g' vs ws := by
  refine Outcome.forall₂_of_forall₂ h.flip h'.flip fun binding _ v w hv hw d hd => ?_
  rw [← hv d hd, dtype?, hw]
  rfl

/-! ## An example -/

/-- An activation of the first of two inputs; it is an output twice, around the other input. -/
def Graph.relay : Graph where
  name := "relay"
  values := .replicate 3 ⟨.tensor (.of .f32 [2]), none⟩
  nodes := [⟨⟨0⟩, .relu, [⟨0⟩], [⟨2⟩], .empty, none⟩]
  inputs := [⟨0⟩, ⟨1⟩]
  outputs := [⟨2⟩, ⟨1⟩, ⟨2⟩]
  nextNode := 1

theorem Graph.singleAssignment_relay : relay.SingleAssignment := by decide

theorem Graph.verify_relay : relay.verify = .ok () := by
  refine Graph.verify_eq_ok.mpr ⟨singleAssignment_relay, fun node hn => ?_⟩
  obtain rfl := List.mem_singleton.mp hn
  rfl

/-- Lowering leaves the graph alone. -/
theorem Pass.run_relay (pass : Pass) : pass.run {} .relay = (.relay, .ok {}) := by
  cases pass with
  | verify =>
    rw [run, Graph.verify_relay]
    rfl
  | deadCode =>
    have hkept : (DeadCode.kept .relay).contains ⟨0⟩ = true :=
      DeadCode.contains_kept_of_output Graph.singleAssignment_relay ⟨2⟩ (by decide)
        ⟨⟨0⟩, .relu, [⟨0⟩], [⟨2⟩], .empty, none⟩ (by simp [Graph.relay]) (by decide)
    have hnodes : Graph.relay.nodes.filter (fun node => (DeadCode.kept .relay).contains node.id) =
        Graph.relay.nodes := List.filter_eq_self.mpr fun node hn => by
      obtain rfl := List.mem_singleton.mp hn
      exact hkept
    rw [run, DeadCode.run, hnodes]
    rfl
  | _ => rfl

namespace Relay

/-- A compiler whose interpreter computes nothing. -/
def compiler : Compiler Reference.accelerator where
  registry := Registry.standard Reference.accelerator
  interpret node _ := .error (node.fault (.missingOperand 0))

/-- Two inputs of two elements each. -/
def config : CompileConfig where
  minBlockSize := some 1
  inputSpecs := [{ shape := .fixed [2] }, { shape := .fixed [2] }]

/-- The shapes of the inputs; nothing else is measured. -/
def shapes : ShapeTable := [(⟨0⟩, ⟨.f32, .fixed [2]⟩), (⟨1⟩, ⟨.f32, .fixed [2]⟩)]

/-- The only segment. -/
def segment : Segment := ⟨0, [⟨0⟩], [⟨0⟩], [⟨2⟩]⟩

/-- What is compiled. -/
def prepared : Prepared := ⟨.relay, shapes, ⟨[.segment segment]⟩⟩

/-- The call of the engine of the segment. -/
def call : Node := { Node.engineCall 0 [⟨0⟩] [⟨2⟩] with id := ⟨1⟩ }

/-- The engine of the graph. -/
def engine : Engine where
  network := {
    tensors := .replicate 3 ⟨.f32, [.fixed 2]⟩
    inputs := [⟨"input_0", ⟨0⟩, .f32, .fixed [2]⟩, ⟨"input_1", ⟨1⟩, .f32, .fixed [2]⟩]
    layers := [⟨"n0:activation", .activation .relu, [⟨0⟩], ⟨2⟩⟩]
    outputs := [⟨"output_0", ⟨2⟩⟩, ⟨"output_1", ⟨1⟩⟩, ⟨"output_2", ⟨2⟩⟩] }
  inputs := [⟨"input_0", .f32, .fixed [2]⟩, ⟨"input_1", .f32, .fixed [2]⟩]
  outputs := [⟨"output_0", .f32, .fixed [2]⟩, ⟨"output_1", .f32, .fixed [2]⟩,
    ⟨"output_2", .f32, .fixed [2]⟩]
  reducedPrecision := false
  deviceType := .gpu

theorem lower_eq : compiler.lower .relay {} = .ok .relay := by
  obtain ⟨_, hrun⟩ := Step.exists_runAll_eq_self Pass.run_relay (Step.standard compiler.cap)
  rw [Compiler.lower, Graph.lower, hrun]
  rfl

theorem partition_eq : Graph.relay.partition compiler.registry (.ofConfig config) (some shapes) =
    .ok ⟨[.segment segment]⟩ := by
  obtain ⟨index, hindex⟩ := GraphIndex.exists_build Graph.singleAssignment_relay
  obtain ⟨hform, hdescribes, houtputs⟩ := GraphIndex.describes_of_build hindex
  have hproducer : index.producer? ⟨0⟩ = none := by
    rw [Option.eq_none_iff_forall_ne_some]
    intro id hid
    obtain ⟨node, hn, -, hv⟩ := (Boundary.producer?_eq_some hdescribes).mp hid
    revert node
    decide
  have hin : boundaryInputs index [⟨0⟩] Graph.relay.nodes = [⟨0⟩] := by
    simp [boundaryInputs, Graph.relay, hproducer]
  have hescapes : escapes index [⟨0⟩] ⟨2⟩ = true := by
    simp [escapes, GraphIndex.isOutput, houtputs, Graph.relay]
  have hout : boundaryOutputs index [⟨0⟩] Graph.relay.nodes = [⟨2⟩] := by
    simp [boundaryOutputs, Graph.relay, hescapes]
  -- nothing is demoted, so the one node is the one run
  have hround : (Graph.relay.terrain index (some shapes)).round 1 [] = [] := by
    have hgraph : (Graph.relay.terrain index (some shapes)).graph = .relay := rfl
    have hruns : (Graph.relay.terrain index (some shapes)).runs [] = [Graph.relay.nodes] := rfl
    have hconstants : Graph.relay.nodes.foldl
        (Graph.relay.terrain index (some shapes)).demoteConstant [] = [] := by
      simp [Graph.relay, Terrain.demoteConstant]
    have hnonTensors : (Graph.relay.terrain index (some shapes)).demoteNonTensors []
        Graph.relay.nodes = [] := by
      show (List.foldl _ (List.foldl _ _ (List.filter _ (boundaryInputs index [⟨0⟩] _)))
        (List.filter _ (boundaryOutputs index [⟨0⟩] _))) = _
      rw [hin, hout]
      rfl
    have hunbindable : (Graph.relay.terrain index (some shapes)).demoteUnbindable []
        Graph.relay.nodes = [] := by
      show (List.foldl _ _ (List.filter _ (boundaryInputs index [⟨0⟩] _))) = _
      rw [hin]
      rfl
    unfold Terrain.round
    rw [hgraph, hconstants]
    dsimp only
    rw [hruns]
    simp only [List.foldl_cons, List.foldl_nil, hnonTensors, hunbindable, if_true]
    rfl
  have hsettled : Graph.relay.settled compiler.registry (.ofConfig config) index (some shapes) =
      [] := by
    show (Graph.relay.terrain index (some shapes)).settle 1 2 [] = []
    rw [Terrain.settle, hround]
    rfl
  rw [Graph.partition_eq_ok hindex rfl, hsettled]
  show Except.ok (Plan.mk [.segment ⟨0, [⟨0⟩], boundaryInputs index [⟨0⟩] Graph.relay.nodes,
    boundaryOutputs index [⟨0⟩] Graph.relay.nodes⟩]) = _
  rw [hin, hout]
  rfl

theorem validate_eq : Plan.validate ⟨[.segment segment]⟩ .relay = .ok () := by
  obtain ⟨index, hindex⟩ := GraphIndex.exists_build Graph.singleAssignment_relay
  obtain ⟨hform, hdescribes, houtputs⟩ := GraphIndex.describes_of_build hindex
  have hpartition := partition_eq
  rw [Graph.partition_eq_ok hindex rfl] at hpartition
  rw [← Except.ok.inj hpartition]
  exact Terrain.validate_plan ⟨hform, hdescribes, houtputs⟩ hindex _

theorem prepare_eq : compiler.prepare .relay config = .ok prepared := by
  have hmeasured : Graph.relay.measured compiler.interpret config.inputSpecs = (shapes, .relay) :=
    rfl
  refine Outcome.bind_eq_ok.mpr ⟨(), rfl, Outcome.bind_eq_ok.mpr ⟨(), rfl, ?_⟩⟩
  refine Outcome.bind_eq_ok.mpr ⟨_, lower_eq, ?_⟩
  rw [hmeasured]
  refine Outcome.bind_eq_ok.mpr ⟨(), rfl, ?_⟩
  refine Outcome.bind_eq_ok.mpr ⟨_, Outcome.mapError_eq_ok.mpr partition_eq, ?_⟩
  exact Outcome.bind_eq_ok.mpr ⟨(), Outcome.mapError_eq_ok.mpr validate_eq, rfl⟩

/-- Tensors for the inputs. -/
def tensors : List Tensor := [⟨.f32, [2], .f32 #[-1, 1]⟩, ⟨.f32, [2], .f32 #[-2, 2]⟩]

/-- What the graph gives for them. -/
def results : List Tensor :=
  [⟨.f32, [2], .f32 #[0, 1]⟩, ⟨.f32, [2], .f32 #[-2, 2]⟩, ⟨.f32, [2], .f32 #[0, 1]⟩]

theorem exists_link : ∃ program, compiler.link config prepared = .ok program ∧
    program.run compiler.interpret tensors = .ok results := by
  obtain ⟨made, hmade, hsegment, hrun⟩ : ∃ made, ((compiler.builder config prepared).compile []
      segment).1 = .ok made ∧ made.segment = 0 ∧ (((Assembly.start .relay [made]).call segment
        made).program.run compiler.interpret tensors).toOption = some results :=
    ⟨_, rfl, rfl, by decide +kernel⟩
  have hverify : Graph.verify { Graph.relay with nodes := [call], nextNode := 2 } = .ok () := by
    refine Graph.verify_eq_ok.mpr ⟨by decide, fun node hn => ?_⟩
    obtain rfl := List.mem_singleton.mp hn
    rfl
  refine ⟨((Assembly.start .relay [made]).call segment made).program, ?_,
    Outcome.toOption_eq_some.mp hrun⟩
  refine Outcome.bind_eq_ok.mpr ⟨[made], Outcome.mapError_eq_ok.mpr
    (Outcome.bind_eq_ok.mpr ⟨made, hmade, rfl⟩), Outcome.mapError_eq_ok.mpr ?_⟩
  refine HybridProgram.assemble_eq_ok.mpr
    ⟨(Assembly.start .relay [made]).call segment made, ?_, hverify, rfl⟩
  refine Outcome.foldlM_cons_eq_ok.mpr ⟨_, ?_, rfl⟩
  rw [Assembly.addBlock, Assembly.callSegment_eq]
  simp [Assembly.start, hsegment, segment]
  rfl

theorem wholeEngine_eq : compiler.wholeEngine .relay config = .ok engine :=
  Outcome.bind_eq_ok.mpr ⟨_, prepare_eq, Outcome.bind_eq_ok.mpr ⟨_, rfl, rfl⟩⟩

theorem load_eq : Engine.load engine.save .standard = .ok engine :=
  Engine.load_save (by decide +kernel) rfl

theorem run_embedded_eq :
    (HybridProgram.embedded (A := Reference.accelerator) engine.save engine).run compiler.interpret
      tensors = .ok results :=
  Outcome.toOption_eq_some.mp (by decide +kernel)

end Relay

/-! ## Top theorem -/

/-- The bytes of a converted graph are embedded into a program with the inputs and outputs of the
graph, in their order.  It gives the tensors that the compiled program gives. -/
theorem Compiler.embedding_agrees {compiler : Compiler Reference.accelerator} {g : Graph}
    {c : CompileConfig} {state state' : DeviceState}
    {compilation : Compilation Reference.accelerator} {bytes : Digest.Bytes} {device : Device}
    (hr : compiler.registry.IsPart) (hwide : c.truncateWide = false)
    (hcompile : (compiler.compile state g c).1 = .ok compilation)
    (hconvert : (compiler.convertToEngine state' g c).1 = .ok bytes)
    (hreload : ∀ engine, compiler.wholeEngine g c = .ok engine →
      Reference.accelerator.load bytes device = .ok engine) :
    ∃ p, HybridProgram.embed Reference.accelerator bytes device = .ok p ∧
      p.graph.inputs.length = g.inputs.length ∧ p.graph.outputs.length = g.outputs.length ∧
      compilation.lowered.TypedAs p.graph g.inputs p.graph.inputs ∧
      compilation.lowered.TypedAs p.graph compilation.lowered.outputs p.graph.outputs ∧
      ∀ interpret interpret' inputs outs outs',
        compilation.program.run interpret inputs = .ok outs →
          p.run interpret' inputs = .ok outs' → outs' = outs := by
  have hheld := of_holding hconvert
  rw [convertHeld_eq] at hheld
  obtain ⟨engine, hwhole, -⟩ := Outcome.bind_eq_ok.mp hheld
  obtain ⟨p, s, inputs, inputs', made, hp, hlowered, htwins, hports, hprogram⟩ :=
    exists_twins hcompile hwhole
  obtain ⟨hinputs, hlength⟩ := sameEnds_of_prepare hp
  have hins : p.lowered.TypedAs (HybridProgram.embeddedGraph (A := Reference.accelerator) engine)
      p.lowered.inputs (HybridProgram.embeddedInputs (A := Reference.accelerator) engine) :=
    .of_bindings (htwins.dtypes_inputs hr hwide) (HybridProgram.tensorType?_embeddedInputs _)
  have houts : p.lowered.TypedAs (HybridProgram.embeddedGraph (A := Reference.accelerator) engine)
      p.lowered.outputs (HybridProgram.embeddedOutputs (A := Reference.accelerator) engine) :=
    .of_bindings (htwins.dtypes_outputs hr hwide) (HybridProgram.tensorType?_embeddedOutputs _)
  refine ⟨_, HybridProgram.embed_eq_ok (hreload engine hwhole), ?_, ?_, ?_, ?_, ?_⟩
  · exact hins.length_eq.symm.trans (congrArg List.length hinputs)
  · exact houts.length_eq.symm.trans hlength
  · rw [hlowered, ← hinputs]
    exact hins
  · rw [hlowered]
    exact houts
  · intro interpret interpret' ts outs outs' hrun hrun'
    rw [hprogram] at hrun
    obtain ⟨hexecute, hfits⟩ := HybridProgram.run_embedded (htwins.contracted hr) hrun'
    exact htwins.agree hr hwide hports hrun hexecute hfits

theorem Compiler.embedding_agrees_relay : ∃ compilation p,
    Relay.compiler.registry.IsPart ∧ Relay.config.truncateWide = false ∧
      (Relay.compiler.compile {} .relay Relay.config).1 = .ok compilation ∧
      (Relay.compiler.convertToEngine {} .relay Relay.config).1 = .ok Relay.engine.save ∧
      (∀ engine, Relay.compiler.wholeEngine .relay Relay.config = .ok engine →
        Reference.accelerator.load Relay.engine.save .standard = .ok engine) ∧
      HybridProgram.embed Reference.accelerator Relay.engine.save .standard = .ok p ∧
      p.graph.inputs.length = 2 ∧ p.graph.outputs.length = 3 ∧
      compilation.program.run Relay.compiler.interpret Relay.tensors = .ok Relay.results ∧
      p.run Relay.compiler.interpret Relay.tensors = .ok Relay.results ∧
      ∀ interpret interpret' inputs outs outs',
        compilation.program.run interpret inputs = .ok outs →
          p.run interpret' inputs = .ok outs' → outs' = outs := by
  obtain ⟨program, hprogram, hrun⟩ := Relay.exists_link
  have hlinked : Relay.compiler.linkHeld .relay Relay.config = .ok (Relay.prepared, program) :=
    Outcome.bind_eq_ok.mpr ⟨_, Relay.prepare_eq, Outcome.bind_eq_ok.mpr ⟨_, hprogram, rfl⟩⟩
  have hcompile : (Relay.compiler.compile {} .relay Relay.config).1 = .ok ⟨program, _, _, _⟩ :=
    Outcome.map_eq_ok.mpr ⟨_, hlinked, rfl⟩
  have hconvert : (Relay.compiler.convertToEngine {} .relay Relay.config).1 =
      .ok Relay.engine.save := by
    show Relay.compiler.convertHeld .relay Relay.config = _
    rw [convertHeld_eq]
    exact Outcome.bind_eq_ok.mpr ⟨_, Relay.wholeEngine_eq, rfl⟩
  have hreload : ∀ engine, Relay.compiler.wholeEngine .relay Relay.config = .ok engine →
      Reference.accelerator.load Relay.engine.save .standard = .ok engine := by
    intro engine hengine
    rw [← Except.ok.inj (Relay.wholeEngine_eq.symm.trans hengine)]
    exact Relay.load_eq
  obtain ⟨p, hp, hinputs, houtputs, -, -, hagree⟩ :=
    embedding_agrees Registry.isPart_standard rfl hcompile hconvert hreload
  obtain rfl := Except.ok.inj ((HybridProgram.embed_eq_ok Relay.load_eq).symm.trans hp)
  exact ⟨_, _, Registry.isPart_standard, rfl, hcompile, hconvert, hreload, hp, hinputs, houtputs,
    hrun, Relay.run_embedded_eq, hagree⟩

end HybridGraph
