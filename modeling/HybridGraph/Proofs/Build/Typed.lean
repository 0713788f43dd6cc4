import HybridGraph.Proofs.Build.Members
/-!
# Element types of outputs

Where 64-bit values are not narrowed, a value with a declared element type stands for a tensor of
that type from the moment it is bound: inputs enter with their declared type and the results of a
node are checked against theirs (`SegmentBuilder.Typed`).  So an engine gives what the graph
declares:

    b.config.truncateWide = false → b.boundary s = .ok inputs → b.build s inputs = .ok e →
      Forall₂ (fun v binding => ∀ d, b.graph.dtype? v = some d → binding.dtype = d)
        s.outputs e.outputs                                                   (dtypes_of_build)
    b.build s inputs = .ok e → e.execute ts = .ok outs →
      Forall₂ (fun binding t => t.dtype = binding.dtype) e.outputs outs     (dtypes_of_execute)
-/

namespace HybridGraph

/-- The contract of an output has the element type of its tensor. -/
theorem Network.described_of_build {n : Network} {c : BuilderConfig} {e : Engine}
    (h : n.build c = .ok e) : List.Forall₂ (fun output binding =>
      ∃ d, n.describe? output.tensor = some d ∧ binding.dtype = d.dtype) n.outputs e.outputs := by
  obtain ⟨bindings, hbindings, rfl⟩ := eq_of_build h
  obtain ⟨los, hlos, hbindings⟩ := Outcome.bind_eq_ok.mp hbindings
  obtain ⟨mids, hmids, hbindings⟩ := Outcome.bind_eq_ok.mp hbindings
  obtain ⟨his, hhis, hbindings⟩ := Outcome.bind_eq_ok.mp hbindings
  have hlen : ∀ {pick extents}, n.measureOutputs pick = .ok extents →
      List.Forall₂ (fun _ _ => True) n.outputs extents := by
    intro pick extents hextents
    obtain ⟨tensors, -, hmeasured⟩ := Outcome.bind_eq_ok.mp hextents
    exact (Outcome.mapM_eq_ok.mp (Outcome.mapError_eq_ok.mp hmeasured)).imp fun _ _ _ => trivial
  refine (forall₂_of_zip₃ (hlen hlos) (hlen hmids) (hlen hhis)
    (Outcome.mapM_eq_ok.mp hbindings)).imp ?_
  rintro output binding ⟨_, _, _, -, -, -, hbinding⟩
  obtain ⟨d, hd, hbinding⟩ := Outcome.bind_eq_ok.mp hbinding
  obtain rfl := Outcome.pure_eq_ok.mp hbinding
  exact ⟨d, readSlot_eq_ok.mp (Outcome.mapError_eq_ok.mp hd), rfl⟩

namespace SegmentBuilder

variable {b : SegmentBuilder Reference.accelerator} {segment : Nat}
  {state state' : EmitState Reference.accelerator}

/-- Values with a declared element type stand for tensors of that type. -/
def Typed (g : Graph) (bound : List (ValueId × TensorRef)) (n : Network) : Prop :=
  ∀ v x dtype, bound.lookup v = some x → g.dtype? v = some dtype →
    ∃ desc, n.describe? x = some desc ∧ desc.dtype = dtype

theorem Typed.addLayer {g : Graph} {bound : List (ValueId × TensorRef)} {n m : Network}
    {kind : LayerKind} {inputs outs : List TensorRef} {name : String} (h : Typed g bound n)
    (hadd : n.addLayer kind inputs name = .ok (m, outs)) : Typed g bound m := by
  obtain ⟨-, desc, -, -, rfl, -⟩ := Network.addLayer_eq_ok.mp hadd
  intro v x dtype hv hdtype
  obtain ⟨d, hd, hsame⟩ := h v x dtype hv hdtype
  exact ⟨d, Network.describe?_push rfl hd, hsame⟩

/-- A value that enters is read in its declared type. -/
theorem engine_of_boundaryInput {g : Graph} {shapes : ShapeTable} {v : ValueId} {dtype : DType}
    {input : BoundaryInput} (h : g.boundaryInput shapes false v = .ok input)
    (hdtype : g.dtype? v = some dtype) : input.engine = dtype := by
  obtain ⟨declared, engine, shape, hknown, hengine, -, rfl⟩ := Graph.boundaryInput_eq_ok.mp h
  rw [Graph.knownType?, hdtype, Option.some_or] at hknown
  obtain rfl := Option.some.inj hknown
  unfold Graph.engineType at hengine
  split at hengine
  · exact (Except.ok.inj hengine).symm
  · cases hengine

theorem typed_entered {s : Segment} {inputs : List BoundaryInput}
    (hwide : b.config.truncateWide = false) (h : b.boundary s = .ok inputs) :
    Typed b.graph (EmitState.entered inputs).bound (EmitState.entered inputs).network := by
  intro v x dtype hv hdtype
  obtain ⟨input, hinput, rfl⟩ := exists_of_entered hv
  refine ⟨input.sig, by rw [describe?_entered, hinput]; rfl, ?_⟩
  obtain ⟨v, -, hv⟩ := Outcome.exists_of_forall₂
    (Outcome.mapM_eq_ok.mp (Outcome.mapError_eq_ok.mp h)).flip (List.mem_of_getElem? hinput)
  rw [hwide] at hv
  rw [Graph.value_of_boundaryInput hv] at hdtype
  exact engine_of_boundaryInput hv hdtype

theorem dtype_of_fits {declared : TensorType} {desc : TensorSig}
    (h : Emit.fits false declared desc = true) {dtype : DType}
    (hdtype : declared.dtype = some dtype) : desc.dtype = dtype := by
  simp only [Emit.fits, hdtype, Option.all_some, Bool.false_and, Bool.or_false,
    Bool.and_eq_true, beq_iff_eq] at h
  exact h.1.symm

/-- Results are bound to tensors of their declared type. -/
theorem typed_of_bindOutput {site : EmitSite} (hwide : site.truncateWide = false) {v : ValueId}
    {x : TensorRef} (h : (Emit.bindOutput v x).eval site state = (.ok (), state'))
    (htyped : Typed site.graph state.bound state.network) :
    Typed site.graph state'.bound state'.network := by
  obtain rfl := Emit.eval_bindOutput_eq_ok h
  intro w y dtype hw hdtype
  rw [EmitState.bind, List.lookup_cons] at hw
  split at hw
  · next heq =>
    obtain rfl := eq_of_beq heq
    obtain rfl := Option.some.inj hw
    rw [Emit.eval_bindOutput] at h
    split at h
    · cases h
    · next desc hdesc =>
      obtain ⟨type, htype, hdeclared⟩ := Option.bind_eq_some_iff.mp hdtype
      rw [htype, Option.all_some, hwide] at h
      split at h
      · next hfits => exact ⟨desc, hdesc, dtype_of_fits hfits hdeclared⟩
      · cases h
  · exact htyped w y dtype hw hdtype

theorem typed_of_forM_bindOutput {site : EmitSite} (hwide : site.truncateWide = false)
    {entries : List (ValueId × TensorRef)}
    (h : (entries.forM fun entry => Emit.bindOutput entry.1 entry.2).eval site state =
      (.ok (), state'))
    (htyped : Typed site.graph state.bound state.network) :
    Typed site.graph state'.bound state'.network := by
  induction entries generalizing state with
  | nil =>
    obtain rfl := (Prod.mk.inj h).2
    exact htyped
  | cons entry entries ih =>
    obtain ⟨⟨⟩, next, hfirst, hrest⟩ := Emit.eval_bind_eq_ok.mp h
    exact ih hrest (typed_of_bindOutput hwide hfirst htyped)

theorem typed_of_convert (hr : b.registry.IsPart) (hwide : b.config.truncateWide = false)
    {node : Node}
    (h : b.registry.convert b.graph b.config.truncateWide state node = (.ok (), state'))
    (htyped : Typed b.graph state.bound state.network) :
    Typed b.graph state'.bound state'.network := by
  have hsupport := Registry.support_of_convert h
  obtain ⟨converter, hconverter⟩ := Registry.exists_converter hsupport
  rw [Registry.convert_of_support hsupport hconverter] at h
  obtain ⟨tensors, next, hrun, hbind⟩ := Emit.eval_bind_eq_ok.mp h
  have hpositional := hr.positional hconverter
  have hnext : Typed b.graph next.bound next.network := by
    have hbound := hpositional.bound_eq ⟨b.graph, node, b.config.truncateWide⟩ state
    have hnetwork : Typed b.graph state.bound
        (converter.convert.eval ⟨b.graph, node, b.config.truncateWide⟩ state).2.network :=
      hpositional.network_induction (p := Typed b.graph state.bound)
        (fun hadd h => Typed.addLayer h hadd) htyped
    rw [hrun] at hbound hnetwork
    rw [hbound]
    exact hnetwork
  rw [Emit.bindOutputs, Emit.eval_bind, Emit.eval_node] at hbind
  dsimp only at hbind
  split at hbind
  · cases hbind
  · exact typed_of_forM_bindOutput hwide hbind hnext

theorem typed_of_network (hr : b.registry.IsPart) (hwide : b.config.truncateWide = false)
    {s : Segment} {inputs : List BoundaryInput} (hinputs : b.boundary s = .ok inputs)
    (h : b.network s inputs = .ok state) : Typed b.graph state.bound state.network := by
  obtain ⟨first, converted, henter, hmembers, houtputs⟩ := network_eq_ok.mp h
  obtain ⟨rfl, -⟩ := eq_entered henter
  have hconverted : Typed b.graph converted.bound converted.network := by
    refine Outcome.foldlM_induction (p := fun next : EmitState Reference.accelerator =>
      Typed b.graph next.bound next.network) ?_ (typed_entered hwide hinputs) hmembers
    intro next id next' htyped hstep
    obtain ⟨node, -, hconvert⟩ := addMember_eq_ok.mp hstep
    exact typed_of_convert hr hwide hconvert htyped
  intro v x dtype hv hdtype
  rw [bound_of_addOutputs houtputs] at hv
  obtain ⟨desc, hdesc, hsame⟩ := hconverted v x dtype hv hdtype
  refine ⟨desc, ?_, hsame⟩
  unfold Network.describe? at hdesc ⊢
  rwa [(kept_of_addOutputs houtputs).1]

/-- The contract of an input has the element type in which the value enters. -/
theorem inputs_of_build (hr : b.registry.IsPart) {s : Segment} {inputs : List BoundaryInput}
    {e : Engine} (h : b.build s inputs = .ok e) :
    List.Forall₂ (fun (input : BoundaryInput) (binding : EngineBinding) =>
      binding.dtype = input.engine) inputs e.inputs := by
  obtain ⟨state, hstate, hbuild⟩ := Outcome.bind_eq_ok.mp h
  have hbindings : e.inputs = (inputs.zipIdx.map BoundaryInput.toNetwork).map
      fun input => ⟨input.name, input.dtype, input.shape⟩ := by
    rw [(Engine.network_of_build (Outcome.mapError_eq_ok.mp hbuild)).2,
      ← (made_of_network hr hstate).inputs]
    rfl
  rw [hbindings, List.map_map, List.forall₂_map_right_iff]
  conv => arg 2; rw [← List.zipIdx_map_fst 0 inputs]
  exact List.forall₂_map_left_iff.mpr (List.forall₂_same.mpr fun _ _ => rfl)

/-- The contract of an output has the element type that the graph declares. -/
theorem dtypes_of_build (hr : b.registry.IsPart) (hwide : b.config.truncateWide = false)
    {s : Segment} {inputs : List BoundaryInput} (hinputs : b.boundary s = .ok inputs) {e : Engine}
    (h : b.build s inputs = .ok e) : List.Forall₂ (fun v (binding : EngineBinding) =>
      ∀ dtype, b.graph.dtype? v = some dtype → binding.dtype = dtype) s.outputs e.outputs := by
  obtain ⟨state, hstate, hbuild⟩ := Outcome.bind_eq_ok.mp h
  have hmade := made_of_network hr hstate
  have hdescribed := Network.described_of_build (Outcome.mapError_eq_ok.mp hbuild)
  refine Outcome.forall₂_of_forall₂ hmade.outputs.flip hdescribed
    fun output _ v binding hv hbinding dtype hdtype => ?_
  obtain ⟨desc, hdesc, hsame⟩ := typed_of_network hr hwide hinputs hstate v _ dtype hv hdtype
  obtain ⟨desc', hdesc', hbinding⟩ := hbinding
  obtain rfl := Option.some.inj (hdesc.symm.trans hdesc')
  exact hbinding.trans hsame

/-- An engine returns the element types that its contract says. -/
theorem dtypes_of_execute (hr : b.registry.IsPart) {s : Segment} {inputs : List BoundaryInput}
    {e : Engine} (h : b.build s inputs = .ok e) {ts outs : List Tensor}
    (hrun : e.execute ts = .ok outs) :
    List.Forall₂ (fun (binding : EngineBinding) t => t.dtype = binding.dtype) e.outputs outs := by
  obtain ⟨state, hstate, hbuild⟩ := Outcome.bind_eq_ok.mp h
  exact (Engine.allows_of_execute (made_of_network hr hstate).grown.ordered
    (Outcome.mapError_eq_ok.mp hbuild) hrun).imp fun _ _ hallows => hallows.1

end SegmentBuilder

end HybridGraph
