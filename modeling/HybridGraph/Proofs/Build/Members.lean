import HybridGraph.Proofs.Build.Networks
import HybridGraph.Proofs.Conversion.Renamed
import HybridGraph.Proofs.Engine.Contract
/-!
# Segments with the same members

The members of a segment decide what it computes, and its boundary only what it takes and gives.
Where one segment lets more values in than another, in whatever order, and has the same members, its
network has the layers of the other over renamed tensors (`SegmentBuilder.mirrors_of_network`).  So
the two engines find the same tensor for every value, whichever of them they return, how often and
where; and a value that enters is returned as it came:

    e.execute ts = .ok outs → e'.execute ts' = .ok outs' →
      ∃ result?, Forall₂ (result? · = some ·) s.outputs outs ∧
        Forall₂ (result? · = some ·) w.outputs outs' ∧ …                (exists_of_executes)
-/

namespace HybridGraph

/-! ## Layers over renamed tensors -/

/-- Where the inputs have the same values, so have all tensors and the renamed ones. -/
theorem Network.Mirrors.solved {α : Type} {σ : TensorRef → TensorRef} {n m : Network}
    {computes computes' : Layer → List α → α → Prop} {value? value?' : TensorRef → Option α}
    (hordered : n.Ordered) (h : n.Mirrors σ m) (hn : n.SolvedBy computes value?)
    (hm : m.SolvedBy computes' value?')
    (hsame : ∀ layer operands a b, computes layer operands a →
      computes' (layer.renamed σ) operands b → a = b)
    (hinputs : ∀ input ∈ n.inputs, ∃ a, value? input.tensor = some a ∧
      value?' (σ input.tensor) = some a) {x : TensorRef} (hx : x ∈ n.filledBy n.layers) :
    ∃ a, value? x = some a ∧ value?' (σ x) = some a := by
  refine @Network.Ordered.induction n hordered
    (fun x => ∃ a, value? x = some a ∧ value?' (σ x) = some a) hinputs (fun layer hlayer ih => ?_)
    x hx
  have hrenamed : layer.renamed σ ∈ m.layers := h.layers ▸ List.mem_map_of_mem hlayer
  obtain ⟨operands, a, hoperands, ha, hout⟩ := hn layer hlayer
  obtain ⟨operands', b, hoperands', hb, hout'⟩ := hm _ hrenamed
  rw [Layer.renamed, List.forall₂_map_left_iff] at hoperands'
  have heq : operands = operands' := by
    refine List.forall₂_eq_eq_eq ▸ Outcome.forall₂_of_forall₂ hoperands hoperands' ?_
    intro x hx a b ha hb
    obtain ⟨c, hc, hc'⟩ := ih x hx
    rw [ha] at hc
    rw [hb] at hc'
    exact (Option.some.inj hc).trans (Option.some.inj hc').symm
  subst heq
  obtain rfl := hsame layer operands a b ha hb
  exact ⟨a, hout, hout'⟩

/-! ## What is in a network -/

/-- The descriptor of a value that enters. -/
def BoundaryInput.sig (input : BoundaryInput) : TensorSig := ⟨input.engine, input.shape.dimensions⟩

/-- The network input of a value that enters in a place. -/
def BoundaryInput.toNetwork (entry : BoundaryInput × Nat) : NetworkInput :=
  ⟨s!"input_{entry.2}", ⟨entry.2⟩, entry.1.engine, entry.1.shape⟩

/-- The state in which nothing but inputs has been added. -/
def EmitState.entered (inputs : List BoundaryInput) : EmitState Reference.accelerator where
  network := ({
    tensors := (inputs.map BoundaryInput.sig).toArray
    inputs := inputs.zipIdx.map BoundaryInput.toNetwork } : Network)
  bound := (inputs.zipIdx.map fun entry => (entry.1.value, ⟨entry.2⟩)).reverse

namespace SegmentBuilder

variable {b : SegmentBuilder Reference.accelerator} {segment : Nat}
  {state state' : EmitState Reference.accelerator}

theorem eq_entered {inputs : List BoundaryInput}
    (h : inputs.zipIdx.foldlM (addInput segment) (.start _) = .ok state) :
    state = .entered inputs ∧ Network.Grown state.network := by
  induction inputs using List.reverseRecOn generalizing state with
  | nil =>
    obtain rfl := Outcome.pure_eq_ok.mp h
    exact ⟨rfl, .empty⟩
  | append_singleton inputs input ih =>
    rw [List.zipIdx_append, Outcome.foldlM_append_eq_ok] at h
    obtain ⟨mid, hmid, hlast⟩ := h
    obtain ⟨rfl, hgrown⟩ := ih hmid
    obtain ⟨last, hstep, hend⟩ := Outcome.foldlM_cons_eq_ok.mp hlast
    obtain rfl := Outcome.pure_eq_ok.mp hend
    obtain ⟨network, tensor, hadd, rfl⟩ := addInput_eq_ok.mp hstep
    refine ⟨?_, .addInput hgrown hadd⟩
    obtain ⟨rfl, hnetwork⟩ := Network.eq_of_addInput hadd
    subst hnetwork
    simp [EmitState.entered, EmitState.bind, BoundaryInput.toNetwork, BoundaryInput.sig,
      List.zipIdx_append]

/-- What every layer keeps of a network when it is added, the members of a segment keep. -/
theorem network_of_addMembers {p : Network → Prop}
    (hp : ∀ {n kind inputs name n' outs}, Network.addLayer n kind inputs name = .ok (n', outs) →
      p n → p n')
    (hr : b.registry.IsPart) {ids : List NodeId}
    (h : ids.foldlM (b.addMember segment) state = .ok state') (hs : p state.network) :
    p state'.network := by
  refine Outcome.foldlM_induction (p := fun next => p next.network) ?_ hs h
  intro next id next' hnext hadd
  obtain ⟨node, -, hconvert⟩ := addMember_eq_ok.mp hadd
  exact Registry.network_induction (A := Reference.accelerator) hp hr hconvert hnext

theorem grown_of_addOutputs {entries : List (ValueId × Nat)}
    (h : entries.foldlM (addOutput segment) state = .ok state')
    (hgrown : Network.Grown state.network) : Network.Grown state'.network := by
  refine Outcome.foldlM_induction
    (p := fun next : EmitState Reference.accelerator => Network.Grown next.network) ?_ hgrown h
  rintro next ⟨v, number⟩ next' hnext hstep
  obtain ⟨tensor, network, -, hmark, rfl⟩ := addOutput_eq_ok.mp hstep
  exact .markOutput hnext hmark

/-- Outputs add nothing that is computed. -/
theorem kept_of_addOutputs {entries : List (ValueId × Nat)}
    (h : entries.foldlM (addOutput segment) state = .ok state') :
    Network.tensors state'.network = Network.tensors state.network ∧
      Network.inputs state'.network = Network.inputs state.network ∧
        Network.layers state'.network = Network.layers state.network := by
  refine Outcome.foldlM_induction (p := fun next : EmitState Reference.accelerator =>
    Network.tensors next.network = Network.tensors state.network ∧
      Network.inputs next.network = Network.inputs state.network ∧
        Network.layers next.network = Network.layers state.network) ?_ ⟨rfl, rfl, rfl⟩ h
  rintro next ⟨v, number⟩ next' hkept hstep
  obtain ⟨tensor, network, -, hmark, rfl⟩ := addOutput_eq_ok.mp hstep
  obtain rfl := Network.eq_of_markOutput hmark
  exact hkept

/-- Outputs are tensors of their values, in their order. -/
theorem outputs_of_addOutputs {outputs : List ValueId} {k : Nat}
    (h : (outputs.zipIdx k).foldlM (addOutput segment) state = .ok state') :
    ∃ marks, Network.outputs state'.network = Network.outputs state.network ++ marks ∧
      List.Forall₂ (fun v (mark : NetworkOutput) => state.tensor? v = some mark.tensor)
        outputs marks := by
  induction outputs generalizing k state with
  | nil =>
    obtain rfl := Outcome.pure_eq_ok.mp h
    exact ⟨[], (List.append_nil _).symm, .nil⟩
  | cons v outputs ih =>
    obtain ⟨next, hstep, hrest⟩ := Outcome.foldlM_cons_eq_ok.mp h
    obtain ⟨tensor, network, htensor, hmark, rfl⟩ := addOutput_eq_ok.mp hstep
    obtain ⟨marks, houtputs, hmarks⟩ := ih hrest
    obtain rfl := Network.eq_of_markOutput hmark
    exact ⟨⟨_, tensor⟩ :: marks, houtputs.trans (List.append_assoc ..), .cons htensor hmarks⟩

/-- A network of a segment: it takes the values that enter, in their order, and gives the tensors of
the outputs, in their order. -/
structure Made (inputs : List BoundaryInput) (outputs : List ValueId)
    (state : EmitState Reference.accelerator) : Prop where
  grown : Network.Grown state.network
  inputs : Network.inputs state.network = inputs.zipIdx.map BoundaryInput.toNetwork
  outputs : List.Forall₂ (fun v (output : NetworkOutput) => state.tensor? v = some output.tensor)
    outputs (Network.outputs state.network)

theorem made_of_network (hr : b.registry.IsPart) {s : Segment} {inputs : List BoundaryInput}
    (h : b.network s inputs = .ok state) : Made inputs s.outputs state := by
  obtain ⟨first, converted, henter, hmembers, houtputs⟩ := network_eq_ok.mp h
  obtain ⟨rfl, hgrown⟩ := eq_entered henter
  have hinner : Network.Grown converted.network ∧
      Network.inputs converted.network = inputs.zipIdx.map BoundaryInput.toNetwork ∧
      Network.outputs converted.network = [] := by
    refine network_of_addMembers (p := fun n => n.Grown ∧
      n.inputs = inputs.zipIdx.map BoundaryInput.toNetwork ∧ n.outputs = []) ?_ hr hmembers
      ⟨hgrown, rfl, rfl⟩
    rintro n kind ins name n' outs hadd ⟨hn, hinputs, houtputs⟩
    refine ⟨.addLayer hn hadd, ?_⟩
    obtain ⟨-, -, -, -, rfl, -⟩ := Network.addLayer_eq_ok.mp hadd
    exact ⟨hinputs, houtputs⟩
  obtain ⟨-, hinputs, -⟩ := kept_of_addOutputs houtputs
  obtain ⟨marks, hmarked, hmarks⟩ := outputs_of_addOutputs houtputs
  rw [hinner.2.2, List.nil_append] at hmarked
  refine ⟨grown_of_addOutputs houtputs hinner.1, hinputs.trans hinner.2.1,
    hmarked ▸ hmarks.imp fun v mark hv => ?_⟩
  rw [EmitState.tensor?, bound_of_addOutputs houtputs]
  exact hv

/-- A value that no member defines stands for what it stood for when it entered. -/
theorem tensor?_of_network (hr : b.registry.IsPart) {s : Segment} {inputs : List BoundaryInput}
    (h : b.network s inputs = .ok state) {v : ValueId}
    (hv : v ∉ (s.nodes.filterMap b.graph.node?).flatMap Node.outputs) :
    state.tensor? v = (EmitState.entered inputs).tensor? v := by
  obtain ⟨first, converted, henter, hmembers, houtputs⟩ := network_eq_ok.mp h
  obtain ⟨rfl, -⟩ := eq_entered henter
  obtain ⟨run, hrun⟩ := resolves_of_addMembers hmembers
  rw [hrun.filterMap_eq] at hv
  rw [← (extends_of_addMembers hr hrun hmembers).tensor?_of_notMem hv, EmitState.tensor?,
    bound_of_addOutputs houtputs]
  rfl

/-! ## More values that enter -/

/-- A value that stands for a tensor at first enters in its place. -/
theorem exists_of_entered {inputs : List BoundaryInput} {v : ValueId} {x : TensorRef}
    (h : (EmitState.entered inputs).tensor? v = some x) :
    ∃ input, inputs[x.index]? = some input ∧ input.value = v := by
  obtain ⟨before, after, hsplit, -⟩ := List.lookup_eq_some_iff.mp h
  have hmem : (v, x) ∈ (EmitState.entered inputs).bound := by simp [hsplit]
  rw [EmitState.entered, List.mem_reverse, List.mem_map] at hmem
  obtain ⟨⟨input, k⟩, hinput, hentry⟩ := hmem
  obtain ⟨rfl, rfl⟩ := Prod.mk.inj hentry
  exact ⟨input, List.mk_mem_zipIdx_iff_getElem?.mp hinput, rfl⟩

/-- Every value that enters stands for a tensor at first. -/
theorem exists_entered {inputs : List BoundaryInput} {v : ValueId}
    (h : v ∈ inputs.map BoundaryInput.value) :
    ∃ x, (EmitState.entered inputs).tensor? v = some x := by
  rw [← Option.isSome_iff_exists, EmitState.isSome_tensor?, EmitState.entered, List.map_reverse,
    List.mem_reverse, List.map_map]
  have hvalues : inputs.zipIdx.map (fun entry => entry.1.value) =
      inputs.map BoundaryInput.value := by
    rw [← List.zipIdx_map_fst 0 inputs, List.map_map]
    simp
  rw [← hvalues] at h
  exact h

theorem describe?_entered {inputs : List BoundaryInput} {x : TensorRef} :
    Network.describe? (EmitState.entered inputs).network x =
      (inputs[x.index]?).map BoundaryInput.sig := by
  simp [Network.describe?, EmitState.entered]

/-- Where a tensor stands once more values enter, in another order. -/
def relocate (inputs inputs' : List BoundaryInput) (x : TensorRef) : TensorRef :=
  match inputs[x.index]? with
  | some input => ((EmitState.entered inputs').tensor? input.value).getD x
  | none => ⟨x.index - inputs.length + inputs'.length⟩

/-- Values that enter twice enter as the same. -/
def Alike (inputs inputs' : List BoundaryInput) : Prop :=
  ∀ input ∈ inputs, input.value ∈ inputs'.map BoundaryInput.value ∧
    ∀ input' ∈ inputs', input'.value = input.value → input' = input

theorem relocate_of_getElem? {inputs inputs' : List BoundaryInput} (h : Alike inputs inputs')
    {x : TensorRef} {input : BoundaryInput} (hx : inputs[x.index]? = some input) :
    (EmitState.entered inputs').tensor? input.value = some (relocate inputs inputs' x) ∧
      inputs'[(relocate inputs inputs' x).index]? = some input := by
  obtain ⟨hvalue, hsame⟩ := h input (List.mem_of_getElem? hx)
  obtain ⟨y, hy⟩ := exists_entered hvalue
  have hrelocate : relocate inputs inputs' x = y := by
    unfold relocate
    rw [hx]
    dsimp only
    rw [hy, Option.getD_some]
  rw [hrelocate]
  refine ⟨hy, ?_⟩
  obtain ⟨input', hinput', hvalue'⟩ := exists_of_entered hy
  rw [hinput', hsame input' (List.mem_of_getElem? hinput') hvalue']

theorem mirrors_entered {inputs inputs' : List BoundaryInput} (h : Alike inputs inputs') :
    (EmitState.entered inputs).Mirrors (relocate inputs inputs') (.entered inputs') where
  network := {
    layers := rfl
    describe := by
      intro x d hd
      rw [describe?_entered, Option.map_eq_some_iff] at hd ⊢
      obtain ⟨input, hinput, rfl⟩ := hd
      exact ⟨input, (relocate_of_getElem? h hinput).2, rfl⟩
    next := by
      intro k
      simp [EmitState.entered, relocate, Nat.add_comm] }
  bound := by
    intro v x hv
    obtain ⟨input, hinput, rfl⟩ := exists_of_entered hv
    exact (relocate_of_getElem? h hinput).1

/-- Members add the same layers wherever they start. -/
theorem mirrors_of_addMembers (hr : b.registry.IsPart) {σ : TensorRef → TensorRef}
    {s s' t t' : EmitState Reference.accelerator} {segment' : Nat} (h : s.Mirrors σ t)
    {ids : List NodeId} (hs : ids.foldlM (b.addMember segment) s = .ok s')
    (ht : ids.foldlM (b.addMember segment') t = .ok t') : s'.Mirrors σ t' := by
  induction ids generalizing s t with
  | nil =>
    obtain rfl := Outcome.pure_eq_ok.mp hs
    obtain rfl := Outcome.pure_eq_ok.mp ht
    exact h
  | cons id ids ih =>
    obtain ⟨s₁, hstep, hrest⟩ := Outcome.foldlM_cons_eq_ok.mp hs
    obtain ⟨t₁, hstep', hrest'⟩ := Outcome.foldlM_cons_eq_ok.mp ht
    obtain ⟨node, hnode, hconvert⟩ := addMember_eq_ok.mp hstep
    obtain ⟨node', hnode', hconvert'⟩ := addMember_eq_ok.mp hstep'
    obtain rfl := Option.some.inj (hnode.symm.trans hnode')
    exact ih (Registry.mirrors_of_convert hr h hconvert hconvert') hrest hrest'

/-- Outputs change nothing of what the values stand for. -/
theorem mirrors_of_addOutputs {σ : TensorRef → TensorRef}
    {s s' t t' : EmitState Reference.accelerator} {segment' : Nat} (h : s.Mirrors σ t)
    {entries entries' : List (ValueId × Nat)}
    (hs : entries.foldlM (addOutput segment) s = .ok s')
    (ht : entries'.foldlM (addOutput segment') t = .ok t') : s'.Mirrors σ t' := by
  obtain ⟨htensors, -, hlayers⟩ := kept_of_addOutputs hs
  obtain ⟨htensors', -, hlayers'⟩ := kept_of_addOutputs ht
  refine ⟨⟨?_, fun {x d} hd => ?_, fun k => ?_⟩, fun {v x} hv => ?_⟩
  · rw [hlayers, hlayers']
    exact h.network.layers
  · unfold Network.describe? at hd ⊢
    rw [htensors] at hd
    rw [htensors']
    exact h.network.describe hd
  · rw [htensors, htensors']
    exact h.network.next k
  · unfold EmitState.tensor? at hv ⊢
    rw [bound_of_addOutputs hs] at hv
    rw [bound_of_addOutputs ht]
    exact h.bound hv

/-- What is known of a value that enters does not depend on the segment. -/
theorem alike_of_boundary {s w : Segment} {inputs inputs' : List BoundaryInput}
    (hinputs : b.boundary s = .ok inputs) (hinputs' : b.boundary w = .ok inputs')
    (hsub : s.inputs ⊆ w.inputs) : Alike inputs inputs' := by
  have hknown : ∀ {s : Segment} {inputs : List BoundaryInput}, b.boundary s = .ok inputs →
      ∀ input ∈ inputs,
        b.graph.boundaryInput b.shapes b.config.truncateWide input.value = .ok input := by
    intro s inputs h input hmem
    obtain ⟨v, -, hv⟩ := Outcome.exists_of_forall₂
      (Outcome.mapM_eq_ok.mp (Outcome.mapError_eq_ok.mp h)).flip hmem
    rwa [Graph.value_of_boundaryInput hv]
  intro input hmem
  refine ⟨?_, fun input' hmem' hvalue => ?_⟩
  · rw [values_of_boundary hinputs']
    exact hsub (values_of_boundary hinputs ▸ List.mem_map_of_mem hmem)
  · have hentered := hknown hinputs' input' hmem'
    rw [hvalue, hknown hinputs input hmem] at hentered
    exact (Except.ok.inj hentered).symm

/-- Where more values enter a segment with the same members, its network has the same layers over
renamed tensors, and its values stand for the renamed tensors. -/
theorem mirrors_of_network (hr : b.registry.IsPart) {s w : Segment} (hnodes : w.nodes = s.nodes)
    {inputs inputs' : List BoundaryInput} (halike : Alike inputs inputs')
    (hs : b.network s inputs = .ok state) (hw : b.network w inputs' = .ok state') :
    state.Mirrors (relocate inputs inputs') state' := by
  obtain ⟨s₁, s₂, henter, hmembers, houtputs⟩ := network_eq_ok.mp hs
  obtain ⟨t₁, t₂, henter', hmembers', houtputs'⟩ := network_eq_ok.mp hw
  obtain ⟨rfl, -⟩ := eq_entered henter
  obtain ⟨rfl, -⟩ := eq_entered henter'
  rw [hnodes] at hmembers'
  exact mirrors_of_addOutputs (mirrors_of_addMembers hr (mirrors_entered halike) hmembers hmembers')
    houtputs houtputs'

/-! ## What the engines compute -/

/-- A run finds what is given for the values that enter in their tensors. -/
theorem given_of_inputs {inputs : List BoundaryInput} {value? : TensorRef → Option Tensor}
    {given? : ValueId → Option Tensor} {ts : List Tensor}
    (hvalues : List.Forall₂ (fun (input : NetworkInput) t => value? input.tensor = some t)
      (inputs.zipIdx.map BoundaryInput.toNetwork) ts)
    (hgiven : List.Forall₂ (fun v t => given? v = some t) (inputs.map BoundaryInput.value) ts)
    {x : TensorRef} {input : BoundaryInput} (hx : inputs[x.index]? = some input) :
    ∃ t, value? x = some t ∧ given? input.value = some t := by
  rw [← List.zipIdx_map_fst 0 inputs, List.map_map, List.forall₂_map_left_iff] at hgiven
  rw [List.forall₂_map_left_iff] at hvalues
  obtain ⟨t, -, ht, ht'⟩ := Outcome.exists_of_forall₂ (Outcome.forall₂_and hvalues hgiven)
    (List.mk_mem_zipIdx_iff_getElem?.mpr hx)
  exact ⟨t, ht, ht'⟩

/-- Engines that are built with the same options compute a layer alike, whatever its tensors are
called. -/
theorem computes_unique {n n' : Network} {c : BuilderConfig} {e e' : Engine}
    (he : n.build c = .ok e) (he' : n'.build c = .ok e') {σ : TensorRef → TensorRef} {layer : Layer}
    {operands : List Tensor} {t t' : Tensor} (ht : e.Computes layer operands t)
    (ht' : e'.Computes (layer.renamed σ) operands t') : t = t' := by
  obtain ⟨_, -, rfl⟩ := Network.eq_of_build he
  obtain ⟨_, -, rfl⟩ := Network.eq_of_build he'
  obtain ⟨result, hresult, ht⟩ := ht
  obtain ⟨result', hresult', ht'⟩ := ht'
  obtain rfl := Except.ok.inj (hresult.symm.trans hresult')
  exact Except.ok.inj (ht.symm.trans ht')

/-- An engine finds one tensor for every value, whichever values it returns, and so does the engine
of a segment that has the same members and lets more values in.  What enters and is not defined
again is found as it was given. -/
theorem exists_of_executes (hr : b.registry.IsPart) {s w : Segment} (hnodes : w.nodes = s.nodes)
    (hsub : s.inputs ⊆ w.inputs) {inputs inputs' : List BoundaryInput}
    (hinputs : b.boundary s = .ok inputs) (hinputs' : b.boundary w = .ok inputs') {e e' : Engine}
    (he : b.build s inputs = .ok e) (he' : b.build w inputs' = .ok e')
    {given? : ValueId → Option Tensor} {ts ts' outs outs' : List Tensor}
    (hts : List.Forall₂ (fun v t => given? v = some t) s.inputs ts)
    (hts' : List.Forall₂ (fun v t => given? v = some t) w.inputs ts')
    (hrun : e.execute ts = .ok outs) (hrun' : e'.execute ts' = .ok outs') :
    ∃ result? : ValueId → Option Tensor,
      List.Forall₂ (fun v t => result? v = some t) s.outputs outs ∧
        List.Forall₂ (fun v t => result? v = some t) w.outputs outs' ∧
          ∀ v ∈ w.inputs, v ∉ (s.nodes.filterMap b.graph.node?).flatMap Node.outputs →
            result? v = given? v := by
  obtain ⟨state, hstate, hbuild⟩ := Outcome.bind_eq_ok.mp he
  obtain ⟨state', hstate', hbuild'⟩ := Outcome.bind_eq_ok.mp he'
  have hbuild : Network.build state.network b.config.builder = .ok e :=
    Outcome.mapError_eq_ok.mp hbuild
  have hbuild' : Network.build state'.network b.config.builder = .ok e' :=
    Outcome.mapError_eq_ok.mp hbuild'
  have hmade := made_of_network hr hstate
  have hmade' := made_of_network hr hstate'
  have halike := alike_of_boundary hinputs hinputs' hsub
  have hmirrors := mirrors_of_network hr hnodes halike hstate hstate'
  obtain ⟨value?, hsolved, hins, houts⟩ :=
    Engine.exists_of_execute hmade.grown.ordered hbuild hrun
  obtain ⟨value?', hsolved', hins', houts'⟩ :=
    Engine.exists_of_execute hmade'.grown.ordered hbuild' hrun'
  rw [hmade.inputs] at hins
  rw [hmade'.inputs] at hins'
  rw [← values_of_boundary hinputs] at hts
  rw [← values_of_boundary hinputs'] at hts'
  -- what is found in the network of the one is found in the renamed tensors of the other
  have hfound : ∀ x ∈ Network.filledBy state.network (Network.layers state.network), ∃ t,
      value? x = some t ∧ value?' (relocate inputs inputs' x) = some t := by
    intro x hx
    refine hmirrors.network.solved hmade.grown.ordered hsolved hsolved'
      (fun _ _ _ _ => computes_unique hbuild hbuild') (fun input hinput => ?_) hx
    rw [hmade.inputs] at hinput
    obtain ⟨⟨entry, k⟩, hentry, rfl⟩ := List.mem_map.mp hinput
    have hk : inputs[k]? = some entry := List.mk_mem_zipIdx_iff_getElem?.mp hentry
    obtain ⟨t, ht, hgiven⟩ := given_of_inputs hins hts (x := ⟨k⟩) hk
    obtain ⟨t', ht', hgiven'⟩ :=
      given_of_inputs hins' hts' (relocate_of_getElem? halike (x := ⟨k⟩) hk).2
    obtain rfl := Option.some.inj (hgiven.symm.trans hgiven')
    exact ⟨t, ht, ht'⟩
  refine ⟨fun v => (state'.tensor? v).bind value?', ?_, ?_, fun v hv hdefined => ?_⟩
  · refine Outcome.forall₂_of_forall₂ hmade.outputs.flip houts fun output houtput v t hv ht => ?_
    obtain ⟨t', ht', hrenamed⟩ := hfound _ (hmade.grown.ordered.output output houtput)
    obtain rfl := Option.some.inj (ht.symm.trans ht')
    exact Option.bind_eq_some_iff.mpr ⟨_, hmirrors.bound hv, hrenamed⟩
  · refine Outcome.forall₂_of_forall₂ hmade'.outputs.flip houts' fun output _ v t hv ht => ?_
    exact Option.bind_eq_some_iff.mpr ⟨_, hv, ht⟩
  · obtain ⟨x, hx⟩ := exists_entered (values_of_boundary hinputs' ▸ hv)
    obtain ⟨input, hinput, rfl⟩ := exists_of_entered hx
    obtain ⟨t, ht, hgiven⟩ := given_of_inputs hins' hts' hinput
    rw [← hnodes] at hdefined
    rw [hgiven]
    exact Option.bind_eq_some_iff.mpr
      ⟨x, (tensor?_of_network hr hstate' hdefined).trans hx, ht⟩

end SegmentBuilder

end HybridGraph
