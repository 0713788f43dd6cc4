import HybridGraph.Proofs.Engine.Contract
import HybridGraph.Proofs.Engine.Refusals
/-!
# Concrete descriptors

Once the extents of the inputs are given, all descriptors are inferred again.  A layer over known
extents has known extents (`LayerKind.exists_known_of_infer`).  The element type of a result depends
on those of the operands only, and so stays what it was when the layer was added:

    n.Grown → n.concreteShapes extents = .ok tensors → n.describe? x = some d →
      ∃ dims, tensors[x.index]? = some (.of d.dtype dims)                  (Ordered.exists_concrete)

No output is left without known extents then, and no layer is counted without its elements when the
memory of a network is added up (`concreteShapes_known`).
-/

namespace HybridGraph

namespace LayerKind

variable {kind : LayerKind} {d e : TensorSig} {ds es : List TensorSig}

/-- The element type of a result depends on those of the operands only. -/
theorem dtype_of_infer (hops : List.Forall₂ (fun e d => e.dtype = d.dtype) es ds)
    (he : kind.infer es = .ok e) (hd : kind.infer ds = .ok d) : e.dtype = d.dtype := by
  have hd := infers_of_infer hd
  cases infers_of_infer he with
  | constant => cases hd; rfl
  | identity => cases hd; rfl
  | _ =>
    cases hd
    exact (List.forall₂_cons.mp hops).1

end LayerKind

namespace Network

variable {n : Network} {extents : List (List ℕ)} {tensors : Array TensorSig}

/-! ## Concrete descriptors -/

theorem size_of_concreteShapes (h : n.concreteShapes extents = .ok tensors) :
    tensors.size = n.tensors.size := by
  unfold concreteShapes at h
  obtain ⟨-, h⟩ := Outcome.guard_eq_ok.mp h
  obtain ⟨bound, hbound, hlayers⟩ := Outcome.bind_eq_ok.mp h
  have hinputs : bound.size = n.tensors.size :=
    Outcome.foldlM_induction (p := fun slots => slots.size = n.tensors.size)
      (fun hsize hstep => (size_of_writeSlot (Outcome.mapError_eq_ok.mp hstep)).trans hsize) rfl
      hbound
  refine Outcome.foldlM_induction (p := fun slots => slots.size = n.tensors.size)
    (fun hsize hstep => ?_) hinputs hlayers
  obtain ⟨operands, -, hstep⟩ := Outcome.bind_eq_ok.mp hstep
  obtain ⟨desc, -, hwrite⟩ := Outcome.bind_eq_ok.mp hstep
  exact (size_of_writeSlot (Outcome.mapError_eq_ok.mp hwrite)).trans hsize

section

variable (h : n.Ordered) (hshapes : n.concreteShapes extents = .ok tensors)

include h hshapes

/-- Every tensor that is filled has its element type and known extents. -/
theorem Ordered.exists_concrete_of_mem {x : TensorRef} (hx : x ∈ n.filledBy n.layers) :
    ∃ d dims, n.describe? x = some d ∧ tensors[x.index]? = some (.of d.dtype dims) := by
  obtain ⟨hdescribes, hinputs⟩ := h.describes_of_concreteShapes hshapes
  refine h.induction (p := fun x => ∃ d dims, n.describe? x = some d ∧
    tensors[x.index]? = some (.of d.dtype dims)) (fun input hinput => ?_)
    (fun layer hlayer ih => ?_) hx
  · obtain ⟨dims, -, hdims⟩ := Outcome.exists_of_forall₂ hinputs hinput
    exact ⟨_, dims, (h.input input hinput).1, hdims⟩
  · obtain ⟨ds, d, hds, hd, hout⟩ := h.describes layer hlayer
    obtain ⟨es, e, hes, he, hout'⟩ := hdescribes layer hlayer
    have hdtypes : List.Forall₂ (fun e d => e.dtype = d.dtype) es ds :=
      Outcome.forall₂_of_forall₂ hes hds fun x hx e d he hd => by
        obtain ⟨d', dims, hd', he'⟩ := ih x hx
        rw [Option.some.inj (he.symm.trans he'), Option.some.inj (hd.symm.trans hd')]
        rfl
    have hknown : ∀ e ∈ es, ∃ dims, e = .of e.dtype dims := by
      intro e he
      obtain ⟨x, hx, he⟩ := Outcome.exists_of_forall₂ hes.flip he
      obtain ⟨d', dims, -, he'⟩ := ih x hx
      exact ⟨dims, by rw [Option.some.inj (he.symm.trans he')]; rfl⟩
    obtain ⟨dims, hdims⟩ := LayerKind.exists_known_of_infer he hknown
    rw [LayerKind.dtype_of_infer hdtypes he hd] at hdims
    exact ⟨d, dims, hout, hdims ▸ hout'⟩

theorem Ordered.exists_concrete {x : TensorRef} {d : TensorSig} (hd : n.describe? x = some d) :
    ∃ dims, tensors[x.index]? = some (.of d.dtype dims) := by
  have hx := (h.filled x).mpr (Array.getElem?_eq_some_iff.mp hd).1
  obtain ⟨d', dims, hd', hdims⟩ := h.exists_concrete_of_mem hshapes hx
  rw [Option.some.inj (hd.symm.trans hd')]
  exact ⟨dims, hdims⟩

/-! ## Outputs and memory -/

/-- Outputs can be measured in concrete descriptors. -/
theorem Ordered.exists_outputExtents {output : NetworkOutput} (houtput : output ∈ n.outputs) :
    ∃ dims, outputExtents tensors output = .ok dims := by
  obtain ⟨d, dims, -, hdims⟩ := h.exists_concrete_of_mem hshapes (h.output output houtput)
  refine ⟨dims, Outcome.bind_eq_ok.mpr ⟨_, readSlot_eq_ok.mpr hdims, ?_⟩⟩
  dsimp only [TensorSig.of]
  rw [Inference.fixedExtents?_map_fixed]
  rfl

end

section

variable {pick : ShapeSpec → List ℕ} {error : EngineError} (h : n.Ordered)

include h

/-- Outputs are measured unless the descriptors are refused. -/
theorem Ordered.measureOutputs_eq_error (herror : n.measureOutputs pick = .error error) :
    n.concreteShapes (n.inputExtents pick) = .error error := by
  rcases Outcome.bind_eq_error.mp herror with hshapes | ⟨tensors, hshapes, hmeasure⟩
  · exact hshapes
  · obtain ⟨fault, hfault, -⟩ := Outcome.mapError_eq_error.mp hmeasure
    obtain ⟨output, houtput, hfails⟩ := Outcome.exists_of_mapM_eq_error hfault
    obtain ⟨dims, hdims⟩ := h.exists_outputExtents hshapes houtput
    rw [hdims] at hfails
    cases hfails

/-- The contracts of outputs are refused only if the descriptors are, at one end of the ranges. -/
theorem Ordered.outputBindings_eq_error (herror : n.outputBindings = .error error) :
    ∃ pick ∈ [ShapeSpec.min, ShapeSpec.opt, ShapeSpec.max],
      n.concreteShapes (n.inputExtents pick) = .error error := by
  rcases Outcome.bind_eq_error.mp herror with hlo | ⟨lo, -, herror⟩
  · exact ⟨ShapeSpec.min, by simp, h.measureOutputs_eq_error hlo⟩
  rcases Outcome.bind_eq_error.mp herror with hmid | ⟨mid, -, herror⟩
  · exact ⟨ShapeSpec.opt, by simp, h.measureOutputs_eq_error hmid⟩
  rcases Outcome.bind_eq_error.mp herror with hhi | ⟨hi, -, herror⟩
  · exact ⟨ShapeSpec.max, by simp, h.measureOutputs_eq_error hhi⟩
  -- the descriptors that were recorded can all be read
  obtain ⟨⟨output, ends⟩, hmem, herror⟩ := Outcome.exists_of_mapM_eq_error herror
  have hfilled := h.output output (List.of_mem_zip hmem).1
  have hlt := (h.filled output.tensor).mp hfilled
  have hread := readSlot_eq_ok.mpr (Array.getElem?_eq_getElem hlt)
  rcases Outcome.bind_eq_error.mp herror with hfails | ⟨_, -, hfails⟩
  · rw [hread] at hfails
    cases hfails
  · cases hfails

end

/-- An objection to something else than unknown extents of an output. -/
theorem failsWith_concreteShapes_known (extents : List (List ℕ)) :
    Outcome.FailsWith (fun e => ∀ name, e.fault ≠ .openShape name) (n.concreteShapes extents) :=
  failsWith_concreteShapes (p := fun fault => ∀ name, fault ≠ .openShape name)
    (fun _ _ _ => nofun) (fun _ _ => nofun) (fun _ _ _ => nofun) extents

theorem byteCount_of (dtype : DType) (dims : List ℕ) :
    byteCount (.of dtype dims) = elementCount dims * dtype.byteSize := by
  unfold byteCount TensorSig.of
  rw [Inference.fixedExtents?_map_fixed]
  rfl

/-- The result of a layer as it was recorded, and the extents that it is found to have. -/
def Measures (n : Network) (tensors : Array TensorSig) (layer : Layer)
    (result : TensorSig × List ℕ) : Prop :=
  n.describe? layer.output = some result.1 ∧
    tensors[layer.output.index]? = some (.of result.1.dtype result.2)

theorem addBytes_eq_ok {limit : Option ℕ} {total total' number : ℕ} {layer : Layer}
    {result : TensorSig × List ℕ} (hresult : n.Measures tensors layer result)
    (h : addBytes tensors limit total (layer, number) = .ok total') :
    total' = total + elementCount result.2 * result.1.dtype.byteSize := by
  obtain ⟨desc, hdesc, h⟩ := Outcome.bind_eq_ok.mp h
  have hdesc := readSlot_eq_ok.mp (Outcome.mapError_eq_ok.mp hdesc)
  rw [← byteCount_of, Option.some.inj (hresult.2.symm.trans hdesc)]
  cases limit with
  | none => exact (Outcome.pure_eq_ok.mp h).symm
  | some limit => exact (Outcome.pure_eq_ok.mp (Outcome.guard_eq_ok.mp h).2).symm

/-- Every layer adds the bytes of all its elements. -/
theorem exists_measures_of_addBytes {limit : Option ℕ} {total total' number : ℕ}
    {layers : List Layer} (hknown : ∀ layer ∈ layers, ∃ result, n.Measures tensors layer result)
    (h : (layers.zipIdx number).foldlM (addBytes tensors limit) total = .ok total') :
    ∃ results, List.Forall₂ (n.Measures tensors) layers results ∧ total' = total +
      (results.map fun result => elementCount result.2 * result.1.dtype.byteSize).sum := by
  induction layers generalizing total number with
  | nil =>
    obtain rfl := Outcome.pure_eq_ok.mp h
    exact ⟨[], .nil, rfl⟩
  | cons layer layers ih =>
    obtain ⟨next, hnext, hrest⟩ := Outcome.foldlM_cons_eq_ok.mp h
    obtain ⟨⟨result, hresult⟩, hlater⟩ := List.forall_mem_cons.mp hknown
    obtain ⟨results, hresults, rfl⟩ := ih hlater hrest
    refine ⟨result :: results, .cons hresult hresults, ?_⟩
    rw [addBytes_eq_ok hresult hnext, List.map_cons, List.sum_cons, Nat.add_assoc]

theorem Ordered.exists_measures (h : n.Ordered) (hshapes : n.concreteShapes extents = .ok tensors)
    {layer : Layer} (hlayer : layer ∈ n.layers) : ∃ result, n.Measures tensors layer result := by
  have hmem : layer.output ∈ n.filledBy n.layers :=
    List.mem_append_right _ (List.mem_map_of_mem hlayer)
  obtain ⟨d, dims, hd, hdims⟩ := h.exists_concrete_of_mem hshapes hmem
  exact ⟨(d, dims), hd, hdims⟩

/-- Nothing is left unknown once the extents of the inputs are given.  Every tensor has known
extents and the element type that was recorded for it, so the contracts of outputs are refused only
with the descriptors, and the memory of a network is that of all elements of all its layers. -/
theorem concreteShapes_known (h : n.Grown) :
    (∀ extents tensors, n.concreteShapes extents = .ok tensors →
      tensors.size = n.tensors.size ∧ ∀ x d, n.describe? x = some d →
        ∃ dims, tensors[x.index]? = some (.of d.dtype dims)) ∧
    (∀ error, n.outputBindings = .error error →
      (∃ pick ∈ [ShapeSpec.min, ShapeSpec.opt, ShapeSpec.max],
        n.concreteShapes (n.inputExtents pick) = .error error) ∧
      ∀ name, error.fault ≠ .openShape name) ∧
    (∀ tensors, n.concreteShapes (n.inputExtents ShapeSpec.max) = .ok tensors →
      ∀ layer ∈ n.layers, ∃ d dims, n.describe? layer.output = some d ∧
        readSlot tensors layer.output = .ok (.of d.dtype dims) ∧
        byteCount (.of d.dtype dims) = elementCount dims * d.dtype.byteSize) ∧
    ∀ limit total, n.workspace limit = .ok total → ∃ tensors results,
      n.concreteShapes (n.inputExtents ShapeSpec.max) = .ok tensors ∧
      List.Forall₂ (n.Measures tensors) n.layers results ∧
      total = (results.map fun result => elementCount result.2 * result.1.dtype.byteSize).sum := by
  have hordered := h.ordered
  refine ⟨fun extents tensors hshapes => ⟨size_of_concreteShapes hshapes, fun x d hd =>
    hordered.exists_concrete hshapes hd⟩, fun error herror => ?_,
    fun tensors hshapes layer hlayer => ?_, fun limit total htotal => ?_⟩
  · obtain ⟨pick, hpick, hfails⟩ := hordered.outputBindings_eq_error herror
    exact ⟨⟨pick, hpick, hfails⟩, failsWith_concreteShapes_known _ error hfails⟩
  · obtain ⟨⟨d, dims⟩, hd, hdims⟩ := hordered.exists_measures hshapes hlayer
    exact ⟨d, dims, hd, readSlot_eq_ok.mpr hdims, byteCount_of d.dtype dims⟩
  · obtain ⟨tensors, hshapes, hsum⟩ := Outcome.bind_eq_ok.mp htotal
    obtain ⟨results, hresults, rfl⟩ :=
      exists_measures_of_addBytes (fun _ => hordered.exists_measures hshapes) hsum
    exact ⟨tensors, results, hshapes, hresults, Nat.zero_add _⟩

/-- Up to three rows of two are merged into one axis; of three rows nothing stays open. -/
theorem concreteShapes_known_merging :
    let shape : ShapeSpec := .ranged [1, 2] [2, 2] [3, 2]
    let network : Network := {
      tensors := #[⟨.i32, [.dynamic, .fixed 2]⟩, ⟨.i32, [.dynamic]⟩]
      inputs := [⟨"rows", ⟨0⟩, .i32, shape⟩]
      layers := [⟨"merge", .shuffle none (some [-1]), [⟨0⟩], ⟨1⟩⟩] }
    let concrete : Array TensorSig := #[.of .i32 [3, 2], .of .i32 [6]]
    network.Grown ∧ network.concreteShapes [[3, 2]] = .ok concrete ∧
      (∃ dims, concrete[1]? = some (.of .i32 dims)) ∧ network.workspace none = .ok 24 ∧
      ∃ results, List.Forall₂ (network.Measures concrete) network.layers results ∧
        24 = (results.map fun result => elementCount result.2 * result.1.dtype.byteSize).sum := by
  intro shape network concrete
  have hgrown : network.Grown :=
    .addLayer (.addInput .empty (rfl : Network.addInput {} "rows" .i32 shape = .ok _))
      (rfl : Network.addLayer _ (.shuffle none (some [-1])) [⟨0⟩] "merge" = .ok _)
  have hshapes : network.concreteShapes [[3, 2]] = .ok concrete := rfl
  have hbytes : network.workspace none = .ok 24 := rfl
  obtain ⟨hknown, -, -, hworkspace⟩ := concreteShapes_known hgrown
  obtain ⟨tensors, results, htensors, hresults, htotal⟩ := hworkspace none 24 hbytes
  obtain rfl : tensors = concrete := Except.ok.inj (htensors.symm.trans hshapes)
  exact ⟨hgrown, hshapes, (hknown _ _ hshapes).2 ⟨1⟩ _ rfl, hbytes, results, hresults, htotal⟩

end Network

end HybridGraph
