import HybridGraph.Engine.Build
import HybridGraph.Proofs.Engine.Unnamed
/-!
# Networks made step by step

`Network.Grown` are the networks that come about by adding inputs and layers and by marking outputs,
in any order.  In such a network every tensor is an input or the result of one layer, a layer reads
inputs and results of earlier layers, and its result has the descriptor that was inferred for it
(`Network.Grown.ordered`).
-/

namespace HybridGraph

/-! ## Slots -/

section Slots

variable {α : Type} {slots slots' : Array α} {tensor : TensorRef} {a : α}

theorem TensorRef.ext_index {x y : TensorRef} (h : x.index = y.index) : x = y := by
  cases x
  cases y
  exact congrArg TensorRef.mk h

theorem readSlot_eq_ok : readSlot slots tensor = .ok a ↔ slots[tensor.index]? = some a := by
  unfold readSlot
  split <;> simp_all

theorem writeSlot_eq_ok : writeSlot slots tensor a = .ok slots' ↔
    tensor.index < slots.size ∧ slots.setIfInBounds tensor.index a = slots' := by
  unfold writeSlot Array.setIfInBounds
  by_cases hlt : tensor.index < slots.size
  · simp [hlt]
  · simp [hlt]

theorem size_of_writeSlot (h : writeSlot slots tensor a = .ok slots') :
    slots'.size = slots.size := by
  obtain ⟨-, rfl⟩ := writeSlot_eq_ok.mp h
  exact Array.size_setIfInBounds

/-- A written slot holds what was written, the others are as they were. -/
theorem getElem?_of_writeSlot (h : writeSlot slots tensor a = .ok slots') (x : TensorRef) :
    slots'[x.index]? = if x = tensor then some a else slots[x.index]? := by
  obtain ⟨hlt, rfl⟩ := writeSlot_eq_ok.mp h
  rw [Array.getElem?_setIfInBounds]
  by_cases hx : x = tensor
  · rw [if_pos (congrArg TensorRef.index hx.symm), if_pos hlt, if_pos hx]
  · rw [if_neg fun h => hx (TensorRef.ext_index h.symm), if_neg hx]

end Slots

namespace Network

variable {n m : Network}

/-! ## Growing -/

/-- Networks made by adding inputs and layers and by marking outputs. -/
inductive Grown : Network → Prop where
  | empty : Grown {}
  | addInput {n m : Network} {name : String} {dtype : DType} {shape : ShapeSpec}
      {tensor : TensorRef} (h : Grown n) (hadd : n.addInput name dtype shape = .ok (m, tensor)) :
      Grown m
  | addLayer {n m : Network} {kind : LayerKind} {inputs outs : List TensorRef} {name : String}
      (h : Grown n) (hadd : n.addLayer kind inputs name = .ok (m, outs)) : Grown m
  | markOutput {n m : Network} {tensor : TensorRef} {name : String} (h : Grown n)
      (hmark : n.markOutput tensor name = .ok m) : Grown m

/-- The inputs of a network and the results of some of its layers. -/
def filledBy (n : Network) (layers : List Layer) : List TensorRef :=
  n.inputs.map NetworkInput.tensor ++ layers.map Layer.output

/-- What a layer needs to stand after others: all it reads is filled by them, and its result is
described as it is inferred from what it reads. -/
structure Places (n : Network) (front : List Layer) (layer : Layer) : Prop where
  reads : ∀ x ∈ layer.inputs, x ∈ n.filledBy front
  infers : ∃ operands d, List.Forall₂ (fun x e => n.describe? x = some e) layer.inputs operands ∧
    layer.kind.infer operands = .ok d ∧ n.describe? layer.output = some d

/-- A network whose tensors are filled once each, in the order of its layers. -/
structure Ordered (n : Network) : Prop where
  input : ∀ input ∈ n.inputs, n.describe? input.tensor =
    some ⟨input.dtype, input.shape.dimensions⟩ ∧ input.shape.check = .ok ()
  layer : ∀ front layer back, n.layers = front ++ layer :: back → n.Places front layer
  output : ∀ output ∈ n.outputs, output.tensor ∈ n.filledBy n.layers
  filled : ∀ x, x ∈ n.filledBy n.layers ↔ x.index < n.tensors.size
  nodup : (n.filledBy n.layers).Nodup

theorem describe_eq_ok {x : TensorRef} {d : TensorSig} :
    n.describe x = .ok d ↔ n.describe? x = some d := by
  unfold describe
  split <;> simp_all

/-- Descriptors stay when tensors are added. -/
theorem describe?_push {desc d : TensorSig} (hm : m.tensors = n.tensors.push desc)
    {x : TensorRef} (h : n.describe? x = some d) : m.describe? x = some d := by
  obtain ⟨hlt, -⟩ := Array.getElem?_eq_some_iff.mp h
  unfold describe? at h ⊢
  rw [hm, Array.getElem?_push_lt hlt, ← h, Array.getElem?_eq_getElem hlt]

theorem describe?_pushed {desc : TensorSig} (hm : m.tensors = n.tensors.push desc) :
    m.describe? ⟨n.tensors.size⟩ = some desc := by
  unfold describe?
  rw [hm, Array.getElem?_push_size]

/-- A layer keeps its place in a network that grows. -/
theorem Places.mono {front : List Layer} {layer : Layer} {desc : TensorSig}
    (h : n.Places front layer) (hm : m.tensors = n.tensors.push desc)
    (hinputs : n.inputs ⊆ m.inputs) : m.Places front layer where
  reads x hx := by
    rcases List.mem_append.mp (h.reads x hx) with hinput | hlayer
    · exact List.mem_append_left _ (List.map_subset _ hinputs hinput)
    · exact List.mem_append_right _ hlayer
  infers := by
    obtain ⟨operands, d, hoperands, hd, hout⟩ := h.infers
    exact ⟨operands, d, hoperands.imp fun _ _ => describe?_push hm, hd, describe?_push hm hout⟩

theorem ordered_empty : Ordered {} where
  input _ h := nomatch h
  layer front layer back h := by
    have hmem : layer ∈ front ++ layer :: back := by simp
    rw [← h] at hmem
    cases hmem
  output _ h := nomatch h
  filled x := by simp [filledBy]
  nodup := List.nodup_nil

/-- Where one tensor is added and filled, all are filled once each as before. -/
theorem Ordered.filled_push {desc : TensorSig} (h : n.Ordered)
    (hm : m.tensors = n.tensors.push desc)
    (hperm : (m.filledBy m.layers).Perm (⟨n.tensors.size⟩ :: n.filledBy n.layers)) :
    (∀ x, x ∈ m.filledBy m.layers ↔ x.index < m.tensors.size) ∧ (m.filledBy m.layers).Nodup := by
  refine ⟨fun x => ?_, hperm.nodup_iff.mpr (List.nodup_cons.mpr ⟨?_, h.nodup⟩)⟩
  · rw [hperm.mem_iff, List.mem_cons, h.filled, hm, Array.size_push, Nat.lt_succ_iff_lt_or_eq]
    constructor
    · rintro (rfl | hlt)
      · exact .inr rfl
      · exact .inl hlt
    · rintro (hlt | heq)
      · exact .inr hlt
      · exact .inl (TensorRef.ext_index heq)
  · rw [h.filled]
    exact Nat.lt_irrefl _

theorem Ordered.addInput {name : String} {dtype : DType} {shape : ShapeSpec} {tensor : TensorRef}
    (h : n.Ordered) (hadd : n.addInput name dtype shape = .ok (m, tensor)) : m.Ordered := by
  have hcheck : shape.check = .ok () := by
    unfold Network.addInput at hadd
    obtain ⟨-, hadd⟩ := Outcome.guard_eq_ok.mp hadd
    obtain ⟨⟨⟩, hcheck, -⟩ := Outcome.bind_eq_ok.mp hadd
    exact Outcome.mapError_eq_ok.mp hcheck
  obtain ⟨rfl, hm⟩ := eq_of_addInput hadd
  have htensors : m.tensors = n.tensors.push ⟨dtype, shape.dimensions⟩ := by rw [hm]
  have hinputs : m.inputs = n.inputs ++ [⟨name, ⟨n.tensors.size⟩, dtype, shape⟩] := by rw [hm]
  have hlayers : m.layers = n.layers := by rw [hm]
  have houtputs : m.outputs = n.outputs := by rw [hm]
  have hperm : (m.filledBy m.layers).Perm (⟨n.tensors.size⟩ :: n.filledBy n.layers) := by
    rw [filledBy, hinputs, hlayers, List.map_append, List.append_assoc]
    exact List.perm_middle
  obtain ⟨hfilled, hnodup⟩ := h.filled_push htensors hperm
  refine ⟨fun input hinput => ?_, fun front layer back hsplit => ?_, fun output houtput => ?_,
    hfilled, hnodup⟩
  · rw [hinputs, List.mem_append, List.mem_singleton] at hinput
    rcases hinput with hinput | rfl
    · exact ⟨describe?_push htensors (h.input input hinput).1, (h.input input hinput).2⟩
    · exact ⟨describe?_pushed htensors, hcheck⟩
  · rw [hlayers] at hsplit
    exact (h.layer front layer back hsplit).mono htensors (hinputs ▸ List.subset_append_left _ _)
  · rw [houtputs] at houtput
    exact hperm.mem_iff.mpr (List.mem_cons_of_mem _ (h.output output houtput))

/-- The last of a list, or one of those before it. -/
theorem split_snoc {α : Type} {xs front back : List α} {last x : α}
    (h : xs ++ [last] = front ++ x :: back) :
    (front = xs ∧ x = last) ∨ ∃ rest, xs = front ++ x :: rest := by
  rcases back.eq_nil_or_concat with rfl | ⟨rest, y, rfl⟩
  · obtain ⟨rfl, hlast⟩ := List.append_inj' h rfl
    exact .inl ⟨rfl, (List.singleton_inj.mp hlast).symm⟩
  · rw [List.concat_eq_append, ← List.cons_append, ← List.append_assoc] at h
    exact .inr ⟨rest, (List.append_inj' h rfl).1⟩

theorem Ordered.addLayer {kind : LayerKind} {inputs outs : List TensorRef} {name : String}
    (h : n.Ordered) (hadd : n.addLayer kind inputs name = .ok (m, outs)) : m.Ordered := by
  obtain ⟨operands, desc, hoperands, hdesc, hm, rfl⟩ := addLayer_eq_ok.mp hadd
  have htensors : m.tensors = n.tensors.push desc := by rw [hm]
  have hinputs : m.inputs = n.inputs := by rw [hm]
  have hlayers : m.layers = n.layers ++ [⟨name, kind, inputs, ⟨n.tensors.size⟩⟩] := by rw [hm]
  have houtputs : m.outputs = n.outputs := by rw [hm]
  have hperm : (m.filledBy m.layers).Perm (⟨n.tensors.size⟩ :: n.filledBy n.layers) := by
    rw [filledBy, hinputs, hlayers, List.map_append, ← List.append_assoc]
    exact List.perm_append_singleton _ _
  have hdescribed : List.Forall₂ (fun x e => n.describe? x = some e) inputs operands :=
    (Outcome.mapM_eq_ok.mp hoperands).imp fun _ _ => describe_eq_ok.mp
  obtain ⟨hfilled, hnodup⟩ := h.filled_push htensors hperm
  refine ⟨fun input hinput => ?_, fun front layer back hsplit => ?_, fun output houtput => ?_,
    hfilled, hnodup⟩
  · rw [hinputs] at hinput
    exact ⟨describe?_push htensors (h.input input hinput).1, (h.input input hinput).2⟩
  · rw [hlayers] at hsplit
    rcases split_snoc hsplit with ⟨rfl, rfl⟩ | ⟨rest, hrest⟩
    · refine ⟨fun x hx => ?_, operands, desc, hdescribed.imp fun _ _ => describe?_push htensors,
        hdesc, describe?_pushed htensors⟩
      obtain ⟨d, -, hd⟩ := Outcome.exists_of_forall₂ hdescribed hx
      rw [filledBy, hinputs]
      exact (h.filled x).mpr (Array.getElem?_eq_some_iff.mp hd).1
    · exact (h.layer front layer rest hrest).mono htensors (hinputs ▸ List.Subset.refl _)
  · rw [houtputs] at houtput
    exact hperm.mem_iff.mpr (List.mem_cons_of_mem _ (h.output output houtput))

theorem Ordered.markOutput {tensor : TensorRef} {name : String} (h : n.Ordered)
    (hmark : n.markOutput tensor name = .ok m) : m.Ordered := by
  obtain ⟨d, hd, -⟩ := Outcome.bind_eq_ok.mp hmark
  have hd := describe_eq_ok.mp (Outcome.mapError_eq_ok.mp hd)
  obtain rfl := eq_of_markOutput hmark
  refine ⟨h.input, fun front layer back hsplit => ⟨(h.layer front layer back hsplit).reads,
    (h.layer front layer back hsplit).infers⟩, fun output houtput => ?_, h.filled, h.nodup⟩
  rcases List.mem_append.mp houtput with houtput | hlast
  · exact h.output output houtput
  · obtain rfl := List.mem_singleton.mp hlast
    exact (h.filled tensor).mpr (Array.getElem?_eq_some_iff.mp hd).1

/-- Tensors of networks that are made step by step are filled once each, in the order of layers. -/
theorem Grown.ordered (h : n.Grown) : n.Ordered := by
  induction h with
  | empty => exact ordered_empty
  | addInput _ hadd ih => exact ih.addInput hadd
  | addLayer _ hadd ih => exact ih.addLayer hadd
  | markOutput _ hmark ih => exact ih.markOutput hmark

/-! ## Filling slots -/

section Filling

variable {σ ε : Type} {slots slots' : Array σ}

/-- Values of tensors in which every layer finds its operands and its result. -/
def SolvedBy {α : Type} (n : Network) (computes : Layer → List α → α → Prop)
    (value? : TensorRef → Option α) : Prop :=
  ∀ layer ∈ n.layers, ∃ operands result,
    List.Forall₂ (fun x a => value? x = some a) layer.inputs operands ∧
      computes layer operands result ∧ value? layer.output = some result

/-- Nothing is filled twice. -/
theorem Ordered.output_notMem (h : n.Ordered) {front back : List Layer} {layer : Layer}
    (hsplit : n.layers = front ++ layer :: back) : layer.output ∉ n.filledBy front := by
  have hnodup := h.nodup
  rw [filledBy, hsplit, List.map_append, List.map_cons, ← List.append_assoc,
    List.perm_middle.nodup_iff] at hnodup
  exact fun hmem => (List.nodup_cons.mp hnodup).1 (List.mem_append_left _ hmem)

/-- Layers that run one after the other leave a solution of all of them, and what was filled before
stays as it is. -/
theorem Ordered.solved_of_foldlM {step : Array σ → Layer × Nat → Except ε (Array σ)}
    {computes : Layer → List σ → σ → Prop}
    (hstep : ∀ {slots layer number slots'}, step slots (layer, number) = .ok slots' →
      ∃ operands result, List.Forall₂ (fun x a => slots[x.index]? = some a) layer.inputs operands ∧
        computes layer operands result ∧ writeSlot slots layer.output result = .ok slots')
    (h : n.Ordered) {front back : List Layer} {number : Nat} (hsplit : n.layers = front ++ back)
    (hrun : (back.zipIdx number).foldlM step slots = .ok slots') :
    (∀ x ∈ n.filledBy front, slots'[x.index]? = slots[x.index]?) ∧
      ∀ layer ∈ back, ∃ operands result,
        List.Forall₂ (fun x a => slots'[x.index]? = some a) layer.inputs operands ∧
          computes layer operands result ∧ slots'[layer.output.index]? = some result := by
  induction back generalizing front slots number with
  | nil =>
    obtain rfl := Outcome.pure_eq_ok.mp hrun
    exact ⟨fun _ _ => rfl, fun _ h => nomatch h⟩
  | cons layer back ih =>
    rw [List.zipIdx_cons] at hrun
    obtain ⟨next, hnext, hrest⟩ := Outcome.foldlM_cons_eq_ok.mp hrun
    obtain ⟨operands, result, hoperands, hresult, hwrite⟩ := hstep hnext
    have hfresh := h.output_notMem hsplit
    have hsplit' : n.layers = (front ++ [layer]) ++ back := by rw [hsplit, List.append_assoc]; rfl
    obtain ⟨hkept, hsolved⟩ := ih hsplit' hrest
    have hfront : ∀ x ∈ n.filledBy front, slots'[x.index]? = slots[x.index]? := by
      intro x hx
      have hmem : x ∈ n.filledBy (front ++ [layer]) := by
        rw [filledBy, List.map_append, ← List.append_assoc]
        exact List.mem_append_left _ hx
      have hother : x ≠ layer.output := fun hout => hfresh (hout ▸ hx)
      rw [hkept x hmem, getElem?_of_writeSlot hwrite, if_neg hother]
    refine ⟨hfront, fun other hother => ?_⟩
    rcases List.mem_cons.mp hother with rfl | hother
    · refine ⟨operands, result, ?_, hresult, ?_⟩
      · have hreads := (h.layer front other back hsplit).reads
        exact ((List.forall₂_and_left _ _).mpr ⟨hreads, hoperands⟩).imp fun x a hx =>
          (hfront x hx.1).trans hx.2
      · have hmem : other.output ∈ n.filledBy (front ++ [other]) := by simp [filledBy]
        rw [hkept _ hmem, getElem?_of_writeSlot hwrite, if_pos rfl]
    · exact hsolved other hother

theorem Ordered.solvedBy_of_foldlM {step : Array σ → Layer × Nat → Except ε (Array σ)}
    {computes : Layer → List σ → σ → Prop}
    (hstep : ∀ {slots layer number slots'}, step slots (layer, number) = .ok slots' →
      ∃ operands result, List.Forall₂ (fun x a => slots[x.index]? = some a) layer.inputs operands ∧
        computes layer operands result ∧ writeSlot slots layer.output result = .ok slots')
    (h : n.Ordered) (hrun : n.layers.zipIdx.foldlM step slots = .ok slots') :
    (∀ input ∈ n.inputs, slots'[input.tensor.index]? = slots[input.tensor.index]?) ∧
      n.SolvedBy computes fun x => slots'[x.index]? := by
  obtain ⟨hkept, hsolved⟩ :=
    @solved_of_foldlM n σ ε slots slots' step computes hstep h [] n.layers 0 rfl hrun
  exact ⟨fun input hinput => hkept _ (List.mem_append_left _ (List.mem_map_of_mem hinput)), hsolved⟩

/-- Inputs that are bound one after the other are found in their slots. -/
theorem bound_of_foldlM {β : Type} {step : Array σ → NetworkInput × β → Except ε (Array σ)}
    {value : NetworkInput × β → σ}
    (hstep : ∀ {slots entry slots'}, step slots entry = .ok slots' →
      writeSlot slots entry.1.tensor (value entry) = .ok slots')
    {entries : List (NetworkInput × β)} (hnodup : (entries.map (·.1.tensor)).Nodup)
    (hrun : entries.foldlM step slots = .ok slots') :
    (∀ x ∉ entries.map (·.1.tensor), slots'[x.index]? = slots[x.index]?) ∧
      ∀ entry ∈ entries, slots'[entry.1.tensor.index]? = some (value entry) := by
  induction entries generalizing slots with
  | nil =>
    obtain rfl := Outcome.pure_eq_ok.mp hrun
    exact ⟨fun _ _ => rfl, fun _ h => nomatch h⟩
  | cons entry entries ih =>
    obtain ⟨next, hnext, hrest⟩ := Outcome.foldlM_cons_eq_ok.mp hrun
    rw [List.map_cons, List.nodup_cons] at hnodup
    obtain ⟨hkept, hbound⟩ := ih hnodup.2 hrest
    refine ⟨fun x hx => ?_, fun other hother => ?_⟩
    · rw [List.map_cons, List.mem_cons, not_or] at hx
      rw [hkept x hx.2, getElem?_of_writeSlot (hstep hnext), if_neg hx.1]
    · rcases List.mem_cons.mp hother with rfl | hother
      · rw [hkept _ hnodup.1, getElem?_of_writeSlot (hstep hnext), if_pos rfl]
      · exact hbound other hother

theorem map_tensor_zip {β : Type} {values : List β} (hlen : values.length = n.inputs.length) :
    (n.inputs.zip values).map (·.1.tensor) = n.inputs.map NetworkInput.tensor := by
  conv_rhs => rw [← List.map_fst_zip (Nat.le_of_eq hlen.symm), List.map_map]
  rfl

theorem Ordered.nodup_inputs (h : n.Ordered) : (n.inputs.map NetworkInput.tensor).Nodup :=
  (List.nodup_append.mp h.nodup).1

end Filling

end Network

end HybridGraph
