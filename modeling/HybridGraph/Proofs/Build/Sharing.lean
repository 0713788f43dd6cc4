import HybridGraph.Proofs.Build.History
import HybridGraph.Proofs.Build.Networks
import HybridGraph.Proofs.Build.Planned
import HybridGraph.Proofs.Conversion.Alike
/-!
# Segments with one fingerprint share an engine

Everything that decides the network of a segment with distinct values is in its fingerprint and in
the options: while two segments with equal fingerprints are built, their values stand, place by
place, for the same tensors in networks that are equal but for the names of their layers (`Twins`).
So their engines have the same contract and answer the same on all inputs, and an error of the one
differs from the error of the other at most in the name of the layer that it quotes
(`SegmentBuilder.engines_alike`).  A segment that is compiled after others, of which none has its
key and another fingerprint, so gets the engine that it would be built to alone but for the names of
layers (`SegmentBuilder.compile_unnamed`).
-/

namespace HybridGraph

/-! ## States that run in parallel -/

/-- Values of two states stand, place by place, for the same tensors, in networks that are equal but
for the names of their layers. -/
structure Twins (values values' : List ValueId) (s t : EmitState Reference.accelerator)
    (tensors : List TensorRef) : Prop where
  network : s.unnamed = t.unnamed
  bound : s.bound = (values.zip tensors).reverse
  bound' : t.bound = (values'.zip tensors).reverse
  length : tensors.length = values.length
  length' : tensors.length = values'.length

/-- A distinct value stands for the tensor in its place. -/
theorem EmitState.tensor?_of_bound {A : Accelerator} {s : EmitState A} {values : List ValueId}
    {tensors : List TensorRef} (hdistinct : values.Nodup)
    (hbound : s.bound = (values.zip tensors).reverse) (hlen : tensors.length = values.length)
    {v : ValueId} {n : Nat} (hv : values[n]? = some v) : s.tensor? v = tensors[n]? := by
  obtain ⟨hn, -⟩ := List.getElem?_eq_some_iff.mp hv
  have htensor := List.getElem?_eq_getElem (l := tensors) (i := n) (by omega)
  have hkeys : (s.bound.map Prod.fst).Nodup := by
    rw [hbound, List.map_reverse, List.map_fst_zip (by omega)]
    exact List.nodup_reverse.mpr hdistinct
  rw [htensor, tensor?, lookup_eq_some_iff_mem hkeys, hbound, List.mem_reverse]
  exact List.mem_of_getElem? (List.getElem?_zip_eq_some.mpr ⟨hv, htensor⟩)

/-- Nothing else is bound. -/
theorem EmitState.subset_of_binds {A : Accelerator} {s : EmitState A} {values vs : List ValueId}
    {tensors : List TensorRef} (hbound : s.bound = (values.zip tensors).reverse)
    (hlen : tensors.length = values.length) (hvs : s.Binds vs) : vs ⊆ values := by
  intro v hv
  have hkey := isSome_tensor?.mp (hvs v hv)
  rw [hbound, List.map_reverse, List.map_fst_zip (by omega)] at hkey
  exact List.mem_reverse.mp hkey

namespace Twins

variable {values values' vs vs' : List ValueId} {s s' t t' : EmitState Reference.accelerator}
  {tensors : List TensorRef}

/-- Values that have got the same tensors on both sides. -/
theorem append (h : Twins values values' s t tensors) (hnet : s'.unnamed = t'.unnamed)
    {more : List TensorRef}
    (hs : more.length = vs.length ∧ s'.bound = (vs.zip more).reverse ++ s.bound)
    (ht : more.length = vs'.length ∧ t'.bound = (vs'.zip more).reverse ++ t.bound) :
    Twins (values ++ vs) (values' ++ vs') s' t' (tensors ++ more) where
  network := hnet
  bound := by rw [hs.2, h.bound, List.zip_append h.length.symm, List.reverse_append]
  bound' := by rw [ht.2, h.bound', List.zip_append h.length'.symm, List.reverse_append]
  length := by rw [List.length_append, List.length_append, h.length, hs.1]
  length' := by rw [List.length_append, List.length_append, h.length', ht.1]

/-- Values in the same places stand for the same tensors. -/
theorem map_tensor?_eq (h : Twins values values' s t tensors) (hdistinct : values.Nodup)
    (hdistinct' : values'.Nodup) {places : List Nat}
    (hvs : List.Forall₂ (fun v n => values[n]? = some v) vs places)
    (hvs' : List.Forall₂ (fun v n => values'[n]? = some v) vs' places) :
    vs.map s.tensor? = vs'.map t.tensor? := by
  have hplaces : vs.map s.tensor? = places.map (tensors[·]?) := by
    rw [← List.forall₂_eq_eq_eq, List.forall₂_map_left_iff, List.forall₂_map_right_iff]
    exact hvs.imp fun _ _ => EmitState.tensor?_of_bound hdistinct h.bound h.length
  have hplaces' : vs'.map t.tensor? = places.map (tensors[·]?) := by
    rw [← List.forall₂_eq_eq_eq, List.forall₂_map_left_iff, List.forall₂_map_right_iff]
    exact hvs'.imp fun _ _ => EmitState.tensor?_of_bound hdistinct' h.bound' h.length'
  rw [hplaces, hplaces']

end Twins

/-! ## Building in parallel -/

namespace SegmentBuilder

variable {b b' : SegmentBuilder Reference.accelerator} {segment segment' k : Nat}
  {values values' : List ValueId} {s s' t t' : EmitState Reference.accelerator}
  {tensors : List TensorRef}

theorem twins_of_addInputs {inputs inputs' : List BoundaryInput}
    (hinputs : List.Forall₂ (fun i i' : BoundaryInput => i.engine = i'.engine ∧ i.shape = i'.shape)
      inputs inputs')
    (h : Twins values values' s t tensors)
    (hs : (inputs.zipIdx k).foldlM (addInput segment) s = .ok s')
    (ht : (inputs'.zipIdx k).foldlM (addInput segment') t = .ok t') :
    ∃ tensors', Twins (values ++ inputs.map BoundaryInput.value)
      (values' ++ inputs'.map BoundaryInput.value) s' t' tensors' := by
  induction hinputs generalizing k values values' s t tensors with
  | nil =>
    obtain rfl := Outcome.pure_eq_ok.mp hs
    obtain rfl := Outcome.pure_eq_ok.mp ht
    exact ⟨tensors, by simpa using h⟩
  | @cons input input' inputs inputs' hsame _ ih =>
    obtain ⟨s₁, hfirst, hrest⟩ := Outcome.foldlM_cons_eq_ok.mp hs
    obtain ⟨t₁, hfirst', hrest'⟩ := Outcome.foldlM_cons_eq_ok.mp ht
    obtain ⟨network, tensor, hadd, rfl⟩ := addInput_eq_ok.mp hfirst
    obtain ⟨network', tensor', hadd', rfl⟩ := addInput_eq_ok.mp hfirst'
    rw [← hsame.1, ← hsame.2] at hadd'
    obtain ⟨rfl, hnet⟩ := Network.addInput_alike h.network hadd hadd'
    have hnext : Twins (values ++ [input.value]) (values' ++ [input'.value])
        ({ s with network }.bind input.value tensor)
        ({ t with network := network' }.bind input'.value tensor) (tensors ++ [tensor]) := by
      refine h.append ?_ ⟨rfl, rfl⟩ ⟨rfl, rfl⟩
      exact hnet
    obtain ⟨tensors', hfinal⟩ := ih hnext hrest hrest'
    exact ⟨tensors', by simpa using hfinal⟩

theorem twins_of_addMembers (hr : b.registry.IsPart) (hr' : b'.registry.IsPart)
    (hconfig : b'.config = b.config) {run run' : List Node} {entries : List MemberRecord}
    (hrun : Recorded values run entries) (hrun' : Recorded values' run' entries)
    {ids ids' : List NodeId} (hids : b.graph.Resolves ids run)
    (hids' : b'.graph.Resolves ids' run')
    (hdistinct : (values ++ run.flatMap Node.outputs).Nodup)
    (hdistinct' : (values' ++ run'.flatMap Node.outputs).Nodup)
    (h : Twins values values' s t tensors)
    (hs : ids.foldlM (b.addMember segment) s = .ok s')
    (ht : ids'.foldlM (b'.addMember segment') t = .ok t') :
    ∃ tensors', Twins (values ++ run.flatMap Node.outputs)
      (values' ++ run'.flatMap Node.outputs) s' t' tensors' := by
  induction hrun generalizing values' run' ids ids' s t tensors with
  | nil =>
    cases hrun'
    cases hids
    cases hids'
    obtain rfl := Outcome.pure_eq_ok.mp hs
    obtain rfl := Outcome.pure_eq_ok.mp ht
    exact ⟨tensors, by simpa using h⟩
  | @cons values node rest entry entries hentry hrest ih =>
    cases hrun' with
    | @cons _ node' rest' _ _ hentry' hrest' =>
    cases hids with
    | @cons id _ ids _ hid hids =>
    cases hids' with
    | @cons id' _ ids' _ hid' hids' =>
    rw [List.flatMap_cons, ← List.append_assoc] at hdistinct hdistinct'
    obtain ⟨s₁, hfirst, hlater⟩ := Outcome.foldlM_cons_eq_ok.mp hs
    obtain ⟨t₁, hfirst', hlater'⟩ := Outcome.foldlM_cons_eq_ok.mp ht
    obtain ⟨other, hother, hconvert⟩ := addMember_eq_ok.mp hfirst
    obtain rfl := Option.some.inj (hid.symm.trans hother)
    obtain ⟨other', hother', hconvert'⟩ := addMember_eq_ok.mp hfirst'
    obtain rfl := Option.some.inj (hid'.symm.trans hother')
    -- equal records: the nodes ask for the same, of values in the same places
    have hcall : node.SameCall node' :=
      ⟨hentry.kind.symm.trans hentry'.kind, hentry.attrs.symm.trans hentry'.attrs,
        hentry.operands.length_eq.trans hentry'.operands.length_eq.symm⟩
    have hoperands : s.operands node = t.operands node' :=
      h.map_tensor?_eq (List.nodup_append.mp (List.nodup_append.mp hdistinct).1).1
        (List.nodup_append.mp (List.nodup_append.mp hdistinct').1).1 hentry.operands
        hentry'.operands
    rw [hconfig] at hconvert'
    obtain ⟨hnet, more, hs₁, ht₁⟩ :=
      Registry.alike_of_convert hr hr' hcall h.network hoperands hconvert hconvert'
    obtain ⟨tensors', hfinal⟩ := ih hrest' hids hids' hdistinct hdistinct'
      (h.append hnet hs₁ ht₁) hlater hlater'
    exact ⟨tensors', by simpa using hfinal⟩

theorem unnamed_of_addOutputs {outputs outputs' : List ValueId} {places : List Nat}
    (hdistinct : values.Nodup) (hdistinct' : values'.Nodup)
    (houtputs : List.Forall₂ (fun v n => values[n]? = some v) outputs places)
    (houtputs' : List.Forall₂ (fun v n => values'[n]? = some v) outputs' places)
    (h : Twins values values' s t tensors)
    (hs : (outputs.zipIdx k).foldlM (addOutput segment) s = .ok s')
    (ht : (outputs'.zipIdx k).foldlM (addOutput segment') t = .ok t') :
    s'.unnamed = t'.unnamed := by
  induction houtputs generalizing k outputs' s t with
  | nil =>
    cases houtputs'
    obtain rfl := Outcome.pure_eq_ok.mp hs
    obtain rfl := Outcome.pure_eq_ok.mp ht
    exact h.network
  | @cons v place outputs places hv _ ih =>
    cases houtputs' with
    | @cons v' _ outputs' _ hv' houtputs' =>
    obtain ⟨s₁, hfirst, hrest⟩ := Outcome.foldlM_cons_eq_ok.mp hs
    obtain ⟨t₁, hfirst', hrest'⟩ := Outcome.foldlM_cons_eq_ok.mp ht
    obtain ⟨tensor, network, htensor, hmark, rfl⟩ := addOutput_eq_ok.mp hfirst
    obtain ⟨tensor', network', htensor', hmark', rfl⟩ := addOutput_eq_ok.mp hfirst'
    rw [EmitState.tensor?_of_bound hdistinct h.bound h.length hv] at htensor
    rw [EmitState.tensor?_of_bound hdistinct' h.bound' h.length' hv'] at htensor'
    obtain rfl := Option.some.inj (htensor.symm.trans htensor')
    have hnext : Twins values values' { s with network } { t with network := network' } tensors :=
      ⟨Network.markOutput_alike h.network hmark hmark', h.bound, h.bound', h.length, h.length'⟩
    exact ih houtputs' hnext hrest hrest'

/-- The values that enter a segment and the results of its members are all different. -/
def DistinctValues {A : Accelerator} (b : SegmentBuilder A) (s : Segment) : Prop :=
  (s.inputs ++ (s.nodes.filterMap b.graph.node?).flatMap Node.outputs).Nodup

/-- The networks of segments with one fingerprint are equal but for the names of layers. -/
theorem unnamed_of_network (hr : b.registry.IsPart) (hr' : b'.registry.IsPart)
    (hconfig : b'.config = b.config) {a a' : Segment} (ha : b.DistinctValues a)
    (ha' : b'.DistinctValues a') {inputs inputs' : List BoundaryInput}
    (hinputs : b.boundary a = .ok inputs) (hinputs' : b'.boundary a' = .ok inputs')
    {f : Fingerprint} (hf : Fingerprint.ofSegment b.graph a inputs = .ok f)
    (hf' : Fingerprint.ofSegment b'.graph a' inputs' = .ok f)
    (hs : b.network a inputs = .ok s) (ht : b'.network a' inputs' = .ok t) :
    s.unnamed = t.unnamed := by
  obtain ⟨s₁, s₂, henter, hmembers, houtputs⟩ := network_eq_ok.mp hs
  obtain ⟨t₁, t₂, henter', hmembers', houtputs'⟩ := network_eq_ok.mp ht
  obtain ⟨run, hrun⟩ := resolves_of_addMembers hmembers
  obtain ⟨run', hrun'⟩ := resolves_of_addMembers hmembers'
  rw [DistinctValues, hrun.filterMap_eq, ← values_of_boundary hinputs] at ha
  rw [DistinctValues, hrun'.filterMap_eq, ← values_of_boundary hinputs'] at ha'
  obtain ⟨hentries, hentered, hplaces⟩ := (Fingerprint.ofSegment_eq_ok hrun ha).mp hf
  obtain ⟨hentries', hentered', hplaces'⟩ := (Fingerprint.ofSegment_eq_ok hrun' ha').mp hf'
  have hsame : List.Forall₂ (fun i i' : BoundaryInput => i.engine = i'.engine ∧ i.shape = i'.shape)
      inputs inputs' := by
    rw [hentered, ← List.forall₂_eq_eq_eq, List.forall₂_map_left_iff, List.forall₂_map_right_iff]
      at hentered'
    exact hentered'.imp fun _ _ h => Prod.mk.inj h
  have hstart : Twins [] [] (EmitState.start Reference.accelerator)
      (EmitState.start Reference.accelerator) [] := ⟨rfl, rfl, rfl, rfl, rfl⟩
  obtain ⟨tensors, hfirst⟩ := twins_of_addInputs hsame hstart henter henter'
  obtain ⟨tensors', hall⟩ := twins_of_addMembers hr hr' hconfig hentries hentries' hrun hrun' ha ha'
    hfirst hmembers hmembers'
  -- the fingerprint has the place of every output, since every output is bound
  have hout := Numbering.forall₂_get?_ofValues ha
    (EmitState.subset_of_binds hall.bound hall.length (binds_of_addOutputs houtputs))
  have hout' := Numbering.forall₂_get?_ofValues ha'
    (EmitState.subset_of_binds hall.bound' hall.length' (binds_of_addOutputs houtputs'))
  rw [← hplaces] at hout
  rw [← hplaces'] at hout'
  exact unnamed_of_addOutputs ha ha' hout hout' hall houtputs houtputs'

instance {A : Accelerator} (b : SegmentBuilder A) (s : Segment) : Decidable (b.DistinctValues s) :=
  inferInstanceAs (Decidable (List.Nodup _))

/-- Two segments with one fingerprint, and the engines that they are built to, each for itself. -/
def Doubles (b b' : SegmentBuilder Reference.accelerator) (a a' : Segment) (e e' : Engine) : Prop :=
  ∃ inputs inputs' f, b.boundary a = .ok inputs ∧ b'.boundary a' = .ok inputs' ∧
    Fingerprint.ofSegment b.graph a inputs = .ok f ∧
    Fingerprint.ofSegment b'.graph a' inputs' = .ok f ∧
    b.build a inputs = .ok e ∧ b'.build a' inputs' = .ok e'

/-- The engines of segments with one fingerprint are equal but for the names of layers. -/
theorem unnamed_of_doubles (hr : b.registry.IsPart) (hr' : b'.registry.IsPart)
    (hconfig : b'.config = b.config) {a a' : Segment} (ha : b.DistinctValues a)
    (ha' : b'.DistinctValues a') {e e' : Engine} (h : Doubles b b' a a' e e') :
    e.unnamed = e'.unnamed := by
  obtain ⟨inputs, inputs', f, hinputs, hinputs', hf, hf', he, he'⟩ := h
  obtain ⟨s, hnetwork, hbuild⟩ := Outcome.bind_eq_ok.mp he
  obtain ⟨t, hnetwork', hbuild'⟩ := Outcome.bind_eq_ok.mp he'
  rw [hconfig] at hbuild'
  have hnet := unnamed_of_network hr hr' hconfig ha ha' hinputs hinputs' hf hf' hnetwork hnetwork'
  exact Network.build_alike hnet (Outcome.mapError_eq_ok.mp hbuild)
    (Outcome.mapError_eq_ok.mp hbuild')

/-- In a plan of a graph that is in order, all values of a segment are different. -/
theorem distinctValues_of_partition {A : Accelerator} {b : SegmentBuilder A}
    (hg : b.graph.SingleAssignment) {options : PartitionOptions} {plan : Plan}
    (hplan : b.graph.partition b.registry options (some b.shapes) = .ok plan) {s : Segment}
    (hs : s ∈ plan.segments) : b.DistinctValues s := by
  obtain ⟨run, hrun⟩ := planned_of_partition hg hplan hs
  rw [DistinctValues, hrun.resolves.filterMap_eq]
  exact hrun.distinct

/-! ## After other segments -/

/-- Segments of a history with the key of a segment have its fingerprint too. -/
def NoCollision {A : Accelerator} (b : SegmentBuilder A) (history : List Segment) (s : Segment) :
    Prop :=
  ∀ s' ∈ history, ∀ inputs inputs' key, b.resolve s = .ok (inputs, key) →
    b.resolve s' = .ok (inputs', key) →
      Fingerprint.ofSegment b.graph s' inputs' = Fingerprint.ofSegment b.graph s inputs

theorem exists_fingerprint {A : Accelerator} {b : SegmentBuilder A} {s : Segment}
    {inputs : List BoundaryInput} {key : EngineKey}
    (h : b.resolve s = .ok (inputs, key)) :
    b.boundary s = .ok inputs ∧ ∃ f, Fingerprint.ofSegment b.graph s inputs = .ok f := by
  obtain ⟨found, hfound, h⟩ := Outcome.bind_eq_ok.mp h
  obtain ⟨key', hkey, h⟩ := Outcome.bind_eq_ok.mp h
  obtain ⟨rfl, -⟩ := Prod.mk.inj (Outcome.pure_eq_ok.mp h)
  obtain ⟨f, hf, -⟩ := Outcome.bind_eq_ok.mp hkey
  exact ⟨hfound, f, hf⟩

/-- The ports of an engine are those of the segment, with the types of its outputs. -/
theorem ports_eq_ok {A : Accelerator} {b : SegmentBuilder A} {s : Segment}
    {inputs : List BoundaryInput} {key : EngineKey} {engine : A.Engine} {made : SegmentEngine A} :
    b.ports s inputs key engine = .ok made ↔ (A.outputs engine).length = s.outputs.length ∧
      ⟨s.id, key, engine, inputs.map fun input => ⟨input.value, some input.declared, input.engine⟩,
        (s.outputs.zip (A.outputs engine)).map fun (v, binding) =>
          ⟨v, b.graph.knownType? b.shapes v, binding.dtype⟩⟩ = made := by
  unfold ports
  rw [Outcome.guard_eq_ok, not_not, Outcome.pure_eq_ok]

/-- A segment that is compiled after others, and would be compiled alone, is answered as if it were
alone but for the names of layers. -/
theorem compile_unnamed (hr : b.registry.IsPart) {history : List Segment} {a : Segment}
    (hkeys : b.NoCollision history a) (hdistinct : ∀ s' ∈ history ++ [a], b.DistinctValues s')
    {shared alone : SegmentEngine Reference.accelerator}
    (hshared : (b.compile (b.cacheAfter history) a).1 = .ok shared)
    (halone : (b.compile [] a).1 = .ok alone) :
    Engine.unnamed shared.engine = Engine.unnamed alone.engine ∧
      { shared with engine := alone.engine } = alone := by
  have hempty : b.compile [] a = b.compile (b.cacheAfter []) a := rfl
  rw [compile_cacheAfter] at hshared
  rw [hempty, compile_cacheAfter] at halone
  obtain ⟨⟨inputs, key⟩, hresolve, hshared⟩ := Outcome.bind_eq_ok.mp hshared
  rw [Outcome.bind_of_eq_ok hresolve] at halone
  obtain ⟨e, hbuilt, hports⟩ := Outcome.bind_eq_ok.mp hshared
  obtain ⟨e', hbuilt', hports'⟩ := Outcome.bind_eq_ok.mp halone
  have he' : b.build a inputs = .ok e' := Outcome.mapError_eq_ok.mp hbuilt'
  have halike : Engine.unnamed e = Engine.unnamed e' := by
    have he := Outcome.mapError_eq_ok.mp hbuilt
    cases hfirst : b.firstBuild? history key with
    | none =>
      rw [hfirst] at he
      rw [Except.ok.inj (he.symm.trans he')]
    | some built =>
      rw [hfirst] at he
      obtain ⟨s', hs', inputs', hresolve', hbuild⟩ := exists_of_firstBuild? hfirst
      obtain ⟨hinputs, f, hf⟩ := exists_fingerprint hresolve
      have hf' := (hkeys s' hs' inputs inputs' key hresolve hresolve').trans hf
      have hdoubles : Doubles b b s' a e e' := ⟨inputs', inputs, f,
        (exists_fingerprint hresolve').1, hinputs, hf', hf, hbuild.trans he, he'⟩
      exact unnamed_of_doubles hr hr rfl (hdistinct s' (List.mem_append_left _ hs'))
        (hdistinct a (by simp)) hdoubles
  obtain ⟨-, rfl⟩ := ports_eq_ok.mp hports
  obtain ⟨-, rfl⟩ := ports_eq_ok.mp hports'
  have houtputs : Reference.accelerator.outputs e = Reference.accelerator.outputs e' :=
    Engine.outputs_eq halike
  refine ⟨halike, ?_⟩
  dsimp only
  rw [houtputs]

end SegmentBuilder

/-! ## An example -/

/-- Two reshapes, each of an input. -/
def Graph.reshapes : Graph where
  name := "reshapes"
  values := .replicate 4 ⟨.tensor .unknown, none⟩
  nodes := [⟨⟨0⟩, .reshape, [⟨0⟩], [⟨2⟩], AttrList.empty.insert "shape" (.ints [5]), none⟩,
    ⟨⟨1⟩, .reshape, [⟨1⟩], [⟨3⟩], AttrList.empty.insert "shape" (.ints [5]), none⟩]
  inputs := [⟨0⟩, ⟨1⟩]
  outputs := [⟨2⟩, ⟨3⟩]
  nextNode := 2

namespace SegmentBuilder

/-- The builder of `Graph.reshapes` for inputs of five or six elements. -/
def reshapes : SegmentBuilder Reference.accelerator where
  registry := Registry.standard Reference.accelerator
  config := {}
  graph := .reshapes
  shapes := [(⟨0⟩, ⟨.f32, .ranged [5] [5] [6]⟩), (⟨1⟩, ⟨.f32, .ranged [5] [5] [6]⟩)]

/-! ## Top theorem -/

variable {b b' : SegmentBuilder Reference.accelerator}

/-- Segments with one fingerprint may share an engine. -/
theorem engines_alike (hr : b.registry.IsPart) (hr' : b'.registry.IsPart)
    (hconfig : b'.config = b.config) {a a' : Segment} (ha : b.DistinctValues a)
    (ha' : b'.DistinctValues a') {e e' : Engine} (h : Doubles b b' a a' e e') :
    e.network.unnamed = e'.network.unnamed ∧ e.inputs = e'.inputs ∧ e.outputs = e'.outputs ∧
      ∀ tensors, (e.execute tensors).mapError EngineError.unnamed =
        (e'.execute tensors).mapError EngineError.unnamed := by
  have halike := unnamed_of_doubles hr hr' hconfig ha ha' h
  exact ⟨congrArg Engine.network halike, Engine.inputs_eq halike, Engine.outputs_eq halike,
    Engine.execute_alike halike⟩

theorem engines_alike_reshapes :
    ∃ e e', Doubles reshapes reshapes ⟨0, [⟨0⟩], [⟨0⟩], [⟨2⟩]⟩ ⟨1, [⟨1⟩], [⟨1⟩], [⟨3⟩]⟩ e e' ∧
      e.network.unnamed = e'.network.unnamed ∧ e.inputs = e'.inputs ∧ e.outputs = e'.outputs ∧
      ∀ tensors, (e.execute tensors).mapError EngineError.unnamed =
        (e'.execute tensors).mapError EngineError.unnamed := by
  have hfirst : reshapes.DistinctValues ⟨0, [⟨0⟩], [⟨0⟩], [⟨2⟩]⟩ := by decide
  have hsecond : reshapes.DistinctValues ⟨1, [⟨1⟩], [⟨1⟩], [⟨3⟩]⟩ := by decide
  refine ⟨_, _, ⟨_, _, _, rfl, rfl, rfl, rfl, rfl, rfl⟩, ?_⟩
  exact engines_alike Registry.isPart_standard Registry.isPart_standard rfl hfirst hsecond
    ⟨_, _, _, rfl, rfl, rfl, rfl, rfl, rfl⟩

/-- Where a value enters twice, one fingerprint stands for different engines, and an error names the
layer of its own engine. -/
theorem exists_engines_differ :
    (∃ e e', Doubles reshapes reshapes ⟨0, [⟨0⟩], [⟨0⟩, ⟨0⟩], [⟨2⟩]⟩
      ⟨1, [⟨0⟩], [⟨0⟩, ⟨1⟩], [⟨1⟩]⟩ e e' ∧ e.outputs ≠ e'.outputs) ∧
    ∃ e e' tensors, Doubles reshapes reshapes ⟨0, [⟨0⟩], [⟨0⟩], [⟨2⟩]⟩
      ⟨1, [⟨1⟩], [⟨1⟩], [⟨3⟩]⟩ e e' ∧ e.execute tensors ≠ e'.execute tensors := by
  constructor
  · refine ⟨_, _, ⟨_, _, _, rfl, rfl, rfl, rfl, rfl, rfl⟩, ?_⟩
    decide
  · refine ⟨_, _, [⟨.f32, [6], .f32 #[0, 0, 0, 0, 0, 0]⟩],
      ⟨_, _, _, rfl, rfl, rfl, rfl, rfl, rfl⟩, ?_⟩
    intro h
    cases h

end SegmentBuilder

end HybridGraph
