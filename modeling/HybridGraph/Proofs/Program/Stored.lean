import HybridGraph.Program.Stored
import HybridGraph.Proofs.Engine.Stored
import HybridGraph.Proofs.Graph.Stored
import HybridGraph.Proofs.Json.Exact
import HybridGraph.Proofs.Program.Counting
/-!
# Stored programs

A stored program holds the record of its graph and, for each engine, the bytes of the text of its
file as a list of numbers.  Reading it checks the graph, the kind of every engine and the number in
every call, so under a faithful serializer a program is loaded as it was stored if its parts are
storable and those checks hold:

    S.Faithful → p.graph.verify = .ok () → p.graph.Storable → (∀ e ∈ p.engines, e.Storable ∧ …) →
      (∀ call ∈ p.engineCalls, checkCall p.engines.length call = .ok ()) →
        ∃ text, p.storedWith S = .ok text ∧
          loadWith S (Reference.acceleratorWith S) text device = .ok p          (load_of_storable)

Assembly writes nothing that those checks refuse (`stored_and_loaded`).
-/

namespace HybridGraph

open Json Json.Serializer

variable {S : Json.Serializer}

/-! ## Saved engines -/

theorem EngineKey.recovers (hS : S.Faithful) (key : EngineKey) :
    S.Recovers EngineKey.ofJson? key.toJson key := by
  have hword : ∀ n : UInt64, n.toNat ≤ Text.maxWord := fun n => Nat.le_of_lt_succ n.toNat_lt
  obtain ⟨jsegment, hsegment, hsegment'⟩ := recovers_size hS (hword key.segmentHash)
  obtain ⟨jconfig, hconfig, hconfig'⟩ := recovers_size hS (hword key.configHash)
  refine ⟨.object [("segment_hash", jsegment), ("config_hash", jconfig)], reread?_fields ?_, ?_⟩
  · simp [rereadFields?, hsegment, hconfig]
  · simp [ofJson?, hsegment', hconfig']

theorem EnginePort.depth_toJson_le (port : EnginePort) : port.toJson.depth ≤ 1 := by
  have hdeclared : (option DType.toJson port.declared).depth ≤ 0 :=
    depth_option_le fun t _ => t.depth_toJson.le
  have hvalue : port.value.toJson.depth = 0 := rfl
  simp only [toJson, depth, fieldsDepth, DType.depth_toJson]
  omega

theorem EnginePort.recovers (hS : S.Faithful) {port : EnginePort}
    (h : port.value.index < Number.twoPow 32) :
    S.Recovers EnginePort.ofJson? port.toJson port := by
  have hdeclared : S.Recovers (option? DType.ofJson?) (.option DType.toJson port.declared)
      port.declared := recovers_option hS rfl fun t _ => t.recovers hS
  obtain ⟨jvalue, hvalue, hvalue'⟩ := ValueId.recovers hS h
  obtain ⟨jdeclared, hdeclared, hdeclared'⟩ := hdeclared
  obtain ⟨jengine, hengine, hengine'⟩ := port.engine.recovers hS
  refine ⟨.object [("value", jvalue), ("declared", jdeclared), ("engine", jengine)],
    reread?_fields ?_, ?_⟩
  · simp [rereadFields?, hvalue, hdeclared, hengine]
  · simp [ofJson?, hvalue', hdeclared', hengine']

/-- Numbers fit their words. -/
structure SavedEngine.Storable (saved : SavedEngine) : Prop where
  segment : saved.segment ≤ Text.maxWord
  inputs : ∀ port ∈ saved.inputs, port.value.index < Number.twoPow 32
  outputs : ∀ port ∈ saved.outputs, port.value.index < Number.twoPow 32

theorem SavedEngine.recovers (hS : S.Faithful) {saved : SavedEngine} (h : saved.Storable) :
    S.Recovers SavedEngine.ofJson? saved.toJson saved := by
  have hbytes : S.Recovers (list? byte?) (.list (fun byte => .nat byte.toNat) saved.bytes)
      saved.bytes := recovers_list fun byte _ => recovers_byte hS byte
  obtain ⟨jsegment, hsegment, hsegment'⟩ := recovers_size hS h.segment
  obtain ⟨jkey, hkey, hkey'⟩ := saved.key.recovers hS
  obtain ⟨jin, hin, hin'⟩ := recovers_list fun port hp => EnginePort.recovers hS (h.inputs port hp)
  obtain ⟨jout, hout, hout'⟩ :=
    recovers_list fun port hp => EnginePort.recovers hS (h.outputs port hp)
  obtain ⟨jbytes, hbytes, hbytes'⟩ := hbytes
  refine ⟨.object [("segment", jsegment), ("key", jkey), ("inputs", jin), ("outputs", jout),
    ("bytes", jbytes)], reread?_fields ?_, ?_⟩
  · simp [rereadFields?, hsegment, hkey, hin, hout, hbytes]
  · simp [ofJson?, hsegment', hkey', hin', hout', hbytes']

theorem SavedEngine.depth_toJson_le (saved : SavedEngine) : saved.toJson.depth ≤ 3 := by
  have hin : (list EnginePort.toJson saved.inputs).depth ≤ 2 :=
    depth_list_le fun port _ => port.depth_toJson_le
  have hout : (list EnginePort.toJson saved.outputs).depth ≤ 2 :=
    depth_list_le fun port _ => port.depth_toJson_le
  have hbytes : (list (fun byte : UInt8 => nat byte.toNat) saved.bytes).depth ≤ 1 :=
    depth_list_le fun _ _ => Nat.le_refl 0
  have hkey : saved.key.toJson.depth = 1 := rfl
  have hsegment : (nat saved.segment).depth = 0 := rfl
  simp only [toJson, depth, fieldsDepth]
  omega

namespace SegmentEngine

/-- The record of an engine of the reference accelerator. -/
def saved (e : SegmentEngine (Reference.acceleratorWith S)) : SavedEngine :=
  ⟨e.segment, e.key, e.inputs, e.outputs, Engine.saveWith S e.engine⟩

/-- Numbers fit their words, floats are finite. -/
structure Storable (e : SegmentEngine (Reference.acceleratorWith S)) : Prop where
  saved : e.saved.Storable
  engine : Engine.Storable e.engine

/-- The engine was built for the kind of a device. -/
def BuiltFor (e : SegmentEngine (Reference.acceleratorWith S)) (device : Device) : Prop :=
  Engine.deviceType e.engine = device.type

theorem restore_saved (hS : S.Faithful) {e : SegmentEngine (Reference.acceleratorWith S)}
    {device : Device} (h : e.Storable) (hdevice : e.BuiltFor device) :
    SavedEngine.restore (Reference.acceleratorWith S) device e.saved = .ok e := by
  have hload : (Reference.acceleratorWith S).load (Engine.saveWith S e.engine) device =
      .ok e.engine := Engine.load_of_storable hS h.engine hdevice
  exact Outcome.bind_eq_ok.mpr ⟨e.engine, Outcome.mapError_eq_ok.mpr hload, rfl⟩

end SegmentEngine

/-! ## Programs -/

namespace HybridProgram

variable {p : HybridProgram (Reference.acceleratorWith S)} {device : Device}

/-- The record of a program. -/
def record (p : HybridProgram (Reference.acceleratorWith S)) : Json :=
  toJson p.graph (p.engines.map SegmentEngine.saved)

theorem stored_eq (p : HybridProgram (Reference.acceleratorWith S)) :
    p.storedWith S = .ok (S.write p.record) := by
  have hsaved : p.engines.mapM SavedEngine.ofEngine = .ok (p.engines.map SegmentEngine.saved) := by
    rw [Outcome.mapM_eq_ok, List.forall₂_map_right_iff]
    exact List.forall₂_same.mpr fun e _ => rfl
  exact Outcome.bind_eq_ok.mpr ⟨_, hsaved, rfl⟩

theorem depth_record_le (p : HybridProgram (Reference.acceleratorWith S)) :
    p.record.depth ≤ 9 := by
  have hgraph := p.graph.depth_toJson_le
  have hengines : (list SavedEngine.toJson (p.engines.map SegmentEngine.saved)).depth ≤ 4 :=
    depth_list_le fun saved _ => saved.depth_toJson_le
  simp only [record, toJson, depth, fieldsDepth]
  omega

theorem recovers_record (hS : S.Faithful) (hg : p.graph.verify = .ok ())
    (hgraph : p.graph.Storable) (hengines : ∀ e ∈ p.engines, e.Storable) :
    S.Recovers ofJson? p.record (p.graph, p.engines.map SegmentEngine.saved) := by
  have hsaved : ∀ saved ∈ p.engines.map SegmentEngine.saved,
      S.Recovers SavedEngine.ofJson? saved.toJson saved := by
    intro saved hs
    obtain ⟨e, he, rfl⟩ := List.mem_map.mp hs
    exact SavedEngine.recovers hS (hengines e he).saved
  obtain ⟨jgraph, hread, hgraph'⟩ := Graph.recovers hS (Graph.verify_eq_ok.mp hg).1 hgraph
  obtain ⟨jengines, hreads, hengines'⟩ := recovers_list hsaved
  refine ⟨.object [("graph", jgraph), ("engines", jengines)], reread?_fields ?_, ?_⟩
  · simp [rereadFields?, hread, hreads]
  · simp [ofJson?, hgraph', hengines']

/-- A program of storable parts whose calls name its engines is loaded as it was stored. -/
theorem load_of_storable (hS : S.Faithful) (hg : p.graph.verify = .ok ())
    (hgraph : p.graph.Storable) (hengines : ∀ e ∈ p.engines, e.Storable)
    (hdevice : ∀ e ∈ p.engines, e.BuiltFor device)
    (hcalls : ∀ call ∈ p.engineCalls, checkCall p.engines.length call = .ok ()) :
    ∃ text, p.storedWith S = .ok text ∧
      loadWith S (Reference.acceleratorWith S) text device = .ok p := by
  have hread := (recovers_record hS hg hgraph hengines).read hS
    (p.depth_record_le.trans (by decide))
  have hrestore : (p.engines.map SegmentEngine.saved).mapM
      (SavedEngine.restore (Reference.acceleratorWith S) device) = .ok p.engines := by
    rw [Outcome.mapM_eq_ok, List.forall₂_map_left_iff]
    exact List.forall₂_same.mpr fun e he =>
      SegmentEngine.restore_saved hS (hengines e he) (hdevice e he)
  refine ⟨S.write p.record, stored_eq p, ?_⟩
  unfold loadWith
  rw [hread]
  refine Outcome.bind_eq_ok.mpr ⟨(), Outcome.mapError_eq_ok.mpr hg, ?_⟩
  refine Outcome.bind_eq_ok.mpr ⟨p.engines, hrestore, ?_⟩
  exact Outcome.bind_eq_ok.mpr ⟨(), Outcome.forM_eq_ok.mpr hcalls, rfl⟩

end HybridProgram

/-! ## Assembled programs -/

theorem checkCall_segmentCall {g : Graph} {s : Segment} {number count : Nat} (h : number < count) :
    HybridProgram.checkCall count (segmentCall g (s, number)) = .ok () := by
  have hint : (segmentCall g (s, number)).int? "engine" = some (number : Int) := rfl
  unfold HybridProgram.checkCall
  rw [hint]
  simp [h]

theorem storable_segmentCall {g : Graph} {s : Segment} {number : Nat}
    (hg : g.nextNode < Number.twoPow 32) (h : number < Number.twoPow 32) :
    (segmentCall g (s, number)).Storable where
  id := NodeId.nextAfter_lt hg number
  attrs := by
    have hword : Number.twoPow 32 ≤ Number.twoPow 63 := by decide
    intro e he
    obtain rfl : e = ("engine", .int number) := List.mem_singleton.mp he
    show Text.minInt ≤ (number : Int) ∧ (number : Int) ≤ Text.maxInt
    unfold Text.minInt Text.maxInt
    omega

namespace HybridProgram

variable {g : Graph} {plan : Plan} {engines : List (SegmentEngine (Reference.acceleratorWith S))}
  {p : HybridProgram (Reference.acceleratorWith S)} {device : Device}

/-- Every engine has a call, and the calls have ids of their own, so there are no more engines than
there are ids. -/
theorem length_engines_le (hcalls : ∀ node ∈ g.nodes, node.kind ≠ .engineCall)
    (h : assemble g plan engines = .ok p) (hnext : g.nextNode < Number.twoPow 32) :
    p.engines.length ≤ Number.twoPow 32 := by
  obtain ⟨hverify, waiting, hcounts⟩ := counted hcalls h
  have hdistinct : (p.engineCalls.map Node.id).Nodup :=
    (Graph.verify_eq_ok.mp hverify).1.nodes.nodup.sublist (List.filter_sublist.map Node.id)
  have hlt : ∀ id ∈ p.engineCalls.map Node.id, id.number < Number.twoPow 32 := by
    refine List.forall_mem_map.mpr fun call hcall => ?_
    obtain ⟨s, number, -, rfl⟩ := hcounts.exists_segmentCall hcall
    exact NodeId.nextAfter_lt hnext number
  have hlength : p.engineCalls.length = p.engines.length := by
    have hsegments : p.engines.length = _ := hcounts.length_engines
    have hlist : p.engineCalls = _ := hcounts.calls
    rw [hsegments, hlist, List.length_map, List.length_zipIdx]
  rw [← hlength, ← List.length_map Node.id]
  exact NodeId.length_le hdistinct hlt

/-- The calls of an assembled program take ids of the counter, so the program is storable. -/
theorem storable_assembled (hcalls : ∀ node ∈ g.nodes, node.kind ≠ .engineCall)
    (h : assemble g plan engines = .ok p) (hg : g.Storable) : p.graph.Storable := by
  have hcount := length_engines_le hcalls h hg.counter
  obtain ⟨-, waiting, hcounts⟩ := counted hcalls h
  have hframe : p.graph = { g with
    nodes := p.graph.nodes, nextNode := NodeId.nextAfter g.nextNode p.engines.length } :=
    hcounts.frame
  have hvalues : p.graph.values = g.values := by rw [hframe]
  have hnext : p.graph.nextNode = NodeId.nextAfter g.nextNode p.engines.length := by rw [hframe]
  refine ⟨hvalues ▸ hg.arena, hvalues ▸ hg.types, fun node hn => ?_,
    hnext ▸ NodeId.nextAfter_lt hg.counter _⟩
  cases hkind : node.isEngineCall with
  | false =>
    refine hg.nodes node (hcounts.kept node (List.mem_filter.mpr ⟨hn, ?_⟩))
    rw [hkind]
    rfl
  | true =>
    obtain ⟨s, number, hlt, rfl⟩ := hcounts.exists_segmentCall (List.mem_filter.mpr ⟨hn, hkind⟩)
    have hlt : number < p.engines.length := hlt
    exact storable_segmentCall hg.counter (Nat.lt_of_lt_of_le hlt hcount)

end HybridProgram

/-! ## An example -/

namespace Rectifiers

/-- A leaky rectifier. -/
def node (number : Nat) : Node :=
  ⟨⟨number⟩, .leakyRelu, [⟨number⟩], [⟨number + 1⟩],
    AttrList.empty.insert "negative_slope" (.float 0.1), none⟩

/-- Two leaky rectifiers, one after the other. -/
def graph : Graph where
  name := "rectifiers"
  values := .replicate 3 ⟨.tensor (.of .f32 [2]), none⟩
  nodes := [node 0, node 1]
  inputs := [⟨0⟩]
  outputs := [⟨2⟩]
  nextNode := 2

/-- The segment of the first one. -/
def segment : Segment := ⟨0, [⟨0⟩], [⟨0⟩], [⟨1⟩]⟩

/-- The plan that leaves the second one to the interpreter. -/
def plan : Plan := ⟨[.segment segment, .fallback ⟨1⟩ (.excludedOp .leakyRelu)]⟩

/-- The engine of the first one. -/
def engine : SegmentEngine (Reference.acceleratorWith Serializer.exact) where
  segment := 0
  key := ⟨1, 2⟩
  engine := {
    network := {
      tensors := .replicate 2 ⟨.f32, [.fixed 2]⟩
      inputs := [⟨"input_0", ⟨0⟩, .f32, .fixed [2]⟩]
      layers := [⟨"n0:activation", .activation (.leakyRelu 0.1), [⟨0⟩], ⟨1⟩⟩]
      outputs := [⟨"output_0", ⟨1⟩⟩] }
    inputs := [⟨"input_0", .f32, .fixed [2]⟩]
    outputs := [⟨"output_0", .f32, .fixed [2]⟩]
    reducedPrecision := false
    deviceType := .gpu : Engine }
  inputs := [⟨⟨0⟩, some .f32, .f32⟩]
  outputs := [⟨⟨1⟩, some .f32, .f32⟩]

/-- The assembled program. -/
def program : HybridProgram (Reference.acceleratorWith Serializer.exact) :=
  ⟨{ graph with nodes := [segmentCall graph (segment, 0), node 1], nextNode := 3 }, [engine]⟩

theorem assemble_eq : HybridProgram.assemble graph plan [engine] = .ok program := by
  have hverify : program.graph.verify = .ok () := by
    refine Graph.verify_eq_ok.mpr ⟨by decide, fun node hn => ?_⟩
    rcases List.mem_cons.mp hn with rfl | hn
    · rfl
    · obtain rfl := List.mem_singleton.mp hn
      rfl
  exact HybridProgram.assemble_eq_ok.mpr ⟨⟨program, []⟩, rfl, hverify, rfl⟩

theorem isFinite_slope : (0.1 : Float).isFinite = true := by decide +kernel

theorem storable_extent : (Dimension.fixed 2).Storable := show 2 ≤ Text.maxWord by decide

theorem storable_contract : (ShapeSpec.fixed [2]).Storable :=
  show ∀ n ∈ [2], n ≤ Text.maxWord by decide

theorem storable_node {number : Nat} (h : number < Number.twoPow 32) : (node number).Storable where
  id := h
  attrs := by
    intro e he
    obtain rfl : e = ("negative_slope", .float 0.1) := List.mem_singleton.mp he
    exact isFinite_slope

theorem storable_graph : graph.Storable := by
  refine ⟨by decide, fun v hv => ?_, fun node hn => ?_, by decide⟩
  · obtain rfl := (Array.mem_replicate.mp hv).2
    intro dims hdims d hd
    obtain rfl := Option.some.inj hdims
    obtain rfl := List.mem_singleton.mp hd
    exact storable_extent
  · rcases List.mem_cons.mp hn with rfl | hn
    · exact storable_node (by decide)
    · obtain rfl := List.mem_singleton.mp hn
      exact storable_node (by decide)

theorem storable_network : (Engine.network engine.engine).Storable := by
  refine ⟨fun d hd => ?_, fun input hi => ?_, fun layer hl => ?_, by decide⟩
  · obtain rfl := (Array.mem_replicate.mp hd).2
    intro extent he
    obtain rfl := List.mem_singleton.mp he
    exact storable_extent
  · obtain rfl := List.mem_singleton.mp hi
    exact ⟨by decide, storable_contract⟩
  · obtain rfl := List.mem_singleton.mp hl
    exact ⟨isFinite_slope, by decide, by decide⟩

theorem storable_engine : engine.Storable := by
  refine ⟨⟨by decide, by decide, by decide⟩, storable_network, fun b hb => ?_, fun b hb => ?_⟩
  · obtain rfl := List.mem_singleton.mp hb
    exact storable_contract
  · obtain rfl := List.mem_singleton.mp hb
    exact storable_contract

theorem isPlain_saved (bytes : Digest.Bytes) :
    isPlain (SavedEngine.toJson ⟨0, engine.key, engine.inputs, engine.outputs, bytes⟩) = true := by
  have hnumber : isPlain (.nat 0) = true := rfl
  have hkey : isPlain engine.key.toJson = true := rfl
  have hinputs : isPlain (.list EnginePort.toJson engine.inputs) = true := by decide +kernel
  have houtputs : isPlain (.list EnginePort.toJson engine.outputs) = true := by decide +kernel
  have hbytes : isPlain (.list (fun byte => .nat byte.toNat) bytes) = true :=
    isPlainItems_map (fun _ => rfl) bytes
  simp only [SavedEngine.toJson, isPlain, isPlainFields, hnumber, hkey, hinputs, houtputs, hbytes,
    Bool.and_self]

theorem isPlain_record (bytes : Digest.Bytes) :
    isPlain (HybridProgram.toJson program.graph
      [⟨0, engine.key, engine.inputs, engine.outputs, bytes⟩]) = true := by
  have hgraph : isPlain program.graph.toJson = true := by decide +kernel
  simp only [HybridProgram.toJson, Json.list, List.map_cons, List.map_nil, isPlain, isPlainFields,
    isPlainItems, hgraph, isPlain_saved, Bool.and_self]

/-- The engine has the bytes that the compact writer gives it. -/
theorem saveWith_exact : Engine.saveWith exact engine.engine = Engine.save engine.engine :=
  congrArg (·.toUTF8.toList) (write_exact (by decide +kernel))

/-- The program has the text that the compact writer gives it. -/
theorem storedWith_exact : program.storedWith exact = program.stored :=
  congrArg Except.ok (write_exact (isPlain_record _))

end Rectifiers

/-! ## Top theorem -/

/-- A program that was assembled from a graph without calls and engines of the kind of a device is
stored under a faithful serializer, and loaded as it was: with the same graph, the same table of
engines and so the same answers.  All floats of the graph and the engines are finite, and numbers
fit their words. -/
theorem HybridProgram.stored_and_loaded (hS : S.Faithful) {g : Graph} {plan : Plan}
    {engines : List (SegmentEngine (Reference.acceleratorWith S))}
    {p : HybridProgram (Reference.acceleratorWith S)} {device : Device}
    (hcalls : ∀ node ∈ g.nodes, node.kind ≠ .engineCall) (h : assemble g plan engines = .ok p)
    (hg : g.Storable) (hengines : ∀ e ∈ engines, e.Storable)
    (hdevice : ∀ e ∈ engines, e.BuiltFor device) :
    ∃ text, p.storedWith S = .ok text ∧
      loadWith S (Reference.acceleratorWith S) text device = .ok p := by
  obtain ⟨hverify, waiting, hcounts⟩ := counted hcalls h
  refine load_of_storable hS hverify (storable_assembled hcalls h hg)
    (fun e he => hengines e (hcounts.given.1 he)) (fun e he => hdevice e (hcounts.given.1 he)) ?_
  intro call hcall
  obtain ⟨s, number, hlt, rfl⟩ := hcounts.exists_segmentCall hcall
  exact checkCall_segmentCall hlt

theorem HybridProgram.stored_and_loaded_rectifiers :
    assemble Rectifiers.graph Rectifiers.plan [Rectifiers.engine] = .ok Rectifiers.program ∧
      Engine.saveWith Serializer.exact Rectifiers.engine.engine =
        Engine.save Rectifiers.engine.engine ∧
      ∃ text, Rectifiers.program.stored = .ok text ∧
        loadWith Serializer.exact (Reference.acceleratorWith Serializer.exact) text .standard =
          .ok Rectifiers.program := by
  rw [← Rectifiers.storedWith_exact]
  refine ⟨Rectifiers.assemble_eq, Rectifiers.saveWith_exact,
    stored_and_loaded Serializer.faithful_exact (by decide) Rectifiers.assemble_eq
      Rectifiers.storable_graph (fun e he => ?_) fun e he => ?_⟩
  · obtain rfl := List.mem_singleton.mp he
    exact Rectifiers.storable_engine
  · obtain rfl := List.mem_singleton.mp he
    rfl

end HybridGraph
