import HybridGraph.Engine.Reference
import HybridGraph.Proofs.Outcome
/-!
# Layer names

The name of a layer occurs in errors and nowhere else.  Networks that are equal but for the names of
their layers (`Network.unnamed`) grow alike and build to engines that are equal but for those names;
such engines compute the same and fail with errors that are equal but for those names:

    n.unnamed = n'.unnamed → n.build c = .ok e → n'.build c = .ok e' → e.unnamed = e'.unnamed
    e.unnamed = e'.unnamed →
      (e.execute ts).mapError EngineError.unnamed = (e'.execute ts).mapError EngineError.unnamed
-/

namespace HybridGraph

/-! ## Erasing names -/

/-- A layer without its name. -/
def Layer.unnamed (layer : Layer) : Layer := { layer with name := "" }

/-- A network without the names of its layers. -/
def Network.unnamed (n : Network) : Network := { n with layers := n.layers.map Layer.unnamed }

/-- An engine without the names of its layers. -/
def Engine.unnamed (engine : Engine) : Engine := { engine with network := engine.network.unnamed }

/-- An objection without the name of the layer it is about. -/
def EngineFault.unnamed : EngineFault → EngineFault
  | .layer label _ cause => .layer label "" cause
  | .workspace _ needed limit => .workspace "" needed limit
  | .run label _ cause => .run label "" cause
  | fault => fault

/-- An error without the name of the layer it is about. -/
def EngineError.unnamed (e : EngineError) : EngineError := { e with fault := e.fault.unnamed }

/-! ## Growing -/

namespace Network

variable {n n' m m' : Network}

theorem tensors_eq (h : n.unnamed = n'.unnamed) : n.tensors = n'.tensors := by
  show n.unnamed.tensors = n'.unnamed.tensors
  rw [h]

theorem inputs_eq (h : n.unnamed = n'.unnamed) : n.inputs = n'.inputs := by
  show n.unnamed.inputs = n'.unnamed.inputs
  rw [h]

theorem outputs_eq (h : n.unnamed = n'.unnamed) : n.outputs = n'.outputs := by
  show n.unnamed.outputs = n'.unnamed.outputs
  rw [h]

theorem layers_eq (h : n.unnamed = n'.unnamed) :
    n.layers.map Layer.unnamed = n'.layers.map Layer.unnamed := congrArg Network.layers h

theorem describe?_eq (h : n.unnamed = n'.unnamed) : n.describe? = n'.describe? := by
  funext tensor
  rw [describe?, describe?, tensors_eq h]

theorem describe_eq (h : n.unnamed = n'.unnamed) : n.describe = n'.describe := by
  funext tensor
  rw [describe, describe, describe?_eq h]

theorem addLayer_eq_ok {kind : LayerKind} {inputs outs : List TensorRef} {name : String} :
    n.addLayer kind inputs name = .ok (m, outs) ↔ ∃ operands desc,
      inputs.mapM n.describe = .ok operands ∧ kind.infer operands = .ok desc ∧
        m = { n with
          tensors := n.tensors.push desc
          layers := n.layers ++ [⟨name, kind, inputs, ⟨n.tensors.size⟩⟩] } ∧
        outs = [⟨n.tensors.size⟩] := by
  simp only [addLayer, Outcome.bind_eq_ok, Outcome.mapError_eq_ok, Outcome.pure_eq_ok, pushTensor,
    Prod.mk.injEq]
  constructor
  · rintro ⟨operands, hoperands, desc, hdesc, rfl, rfl⟩
    exact ⟨operands, desc, hoperands, hdesc, rfl, rfl⟩
  · rintro ⟨operands, desc, hoperands, hdesc, rfl, rfl⟩
    exact ⟨operands, hoperands, desc, hdesc, rfl, rfl⟩

/-- Layers are added alike under whatever names. -/
theorem addLayer_alike (h : n.unnamed = n'.unnamed) {kind : LayerKind}
    {inputs outs outs' : List TensorRef} {name name' : String}
    (hn : n.addLayer kind inputs name = .ok (m, outs))
    (hn' : n'.addLayer kind inputs name' = .ok (m', outs')) :
    outs = outs' ∧ m.unnamed = m'.unnamed := by
  obtain ⟨operands, desc, hoperands, hdesc, rfl, rfl⟩ := addLayer_eq_ok.mp hn
  obtain ⟨operands', desc', hoperands', hdesc', rfl, rfl⟩ := addLayer_eq_ok.mp hn'
  rw [describe_eq h] at hoperands
  obtain rfl := Except.ok.inj (hoperands.symm.trans hoperands')
  obtain rfl := Except.ok.inj (hdesc.symm.trans hdesc')
  refine ⟨by rw [tensors_eq h], ?_⟩
  simp only [unnamed, tensors_eq h, inputs_eq h, outputs_eq h, List.map_append, layers_eq h]
  rfl

theorem eq_of_addInput {name : String} {dtype : DType} {shape : ShapeSpec} {tensor : TensorRef}
    (h : n.addInput name dtype shape = .ok (m, tensor)) :
    tensor = ⟨n.tensors.size⟩ ∧ m = { n with
      tensors := n.tensors.push ⟨dtype, shape.dimensions⟩
      inputs := n.inputs ++ [⟨name, tensor, dtype, shape⟩] } := by
  unfold addInput at h
  obtain ⟨-, h⟩ := Outcome.guard_eq_ok.mp h
  obtain ⟨-, -, h⟩ := Outcome.bind_eq_ok.mp h
  obtain ⟨rfl, rfl⟩ := Prod.mk.inj (Outcome.pure_eq_ok.mp h)
  exact ⟨rfl, rfl⟩

/-- Inputs are added alike. -/
theorem addInput_alike (h : n.unnamed = n'.unnamed) {name : String} {dtype : DType}
    {shape : ShapeSpec} {tensor tensor' : TensorRef}
    (hn : n.addInput name dtype shape = .ok (m, tensor))
    (hn' : n'.addInput name dtype shape = .ok (m', tensor')) :
    tensor = tensor' ∧ m.unnamed = m'.unnamed := by
  obtain ⟨rfl, rfl⟩ := eq_of_addInput hn
  obtain ⟨rfl, rfl⟩ := eq_of_addInput hn'
  refine ⟨by rw [tensors_eq h], ?_⟩
  simp only [unnamed, tensors_eq h, inputs_eq h, outputs_eq h, layers_eq h]

theorem eq_of_markOutput {tensor : TensorRef} {name : String}
    (h : n.markOutput tensor name = .ok m) :
    m = { n with outputs := n.outputs ++ [⟨name, tensor⟩] } := by
  obtain ⟨-, -, h⟩ := Outcome.bind_eq_ok.mp h
  obtain ⟨-, h⟩ := Outcome.guard_eq_ok.mp h
  exact (Outcome.pure_eq_ok.mp h).symm

/-- Outputs are marked alike. -/
theorem markOutput_alike (h : n.unnamed = n'.unnamed) {tensor : TensorRef} {name : String}
    (hn : n.markOutput tensor name = .ok m) (hn' : n'.markOutput tensor name = .ok m') :
    m.unnamed = m'.unnamed := by
  obtain rfl := eq_of_markOutput hn
  obtain rfl := eq_of_markOutput hn'
  simp only [unnamed, tensors_eq h, inputs_eq h, outputs_eq h, layers_eq h]

/-! ## Building -/

/-- The name of a layer is not read when shapes are inferred again. -/
theorem inferLayer_unnamed (tensors : Array TensorSig) (layer : Layer) (number : Nat) :
    inferLayer tensors (layer.unnamed, number) = inferLayer tensors (layer, number) := rfl

theorem zipIdx_unnamed (n : Network) :
    n.unnamed.layers.zipIdx = n.layers.zipIdx.map (Prod.map Layer.unnamed id) := List.zipIdx_map

theorem concreteShapes_unnamed (n : Network) (inputs : List (List Nat)) :
    n.unnamed.concreteShapes inputs = n.concreteShapes inputs := by
  have hlayers : ∀ tensors, n.unnamed.layers.zipIdx.foldlM inferLayer tensors =
      n.layers.zipIdx.foldlM inferLayer tensors := by
    intro tensors
    rw [zipIdx_unnamed, List.foldlM_map]
    simp only [Prod.map, id, inferLayer_unnamed]
  unfold concreteShapes
  simp only [hlayers]
  rfl

theorem outputBindings_unnamed (n : Network) : n.unnamed.outputBindings = n.outputBindings := by
  have hmeasure : ∀ pick, n.unnamed.measureOutputs pick = n.measureOutputs pick := by
    intro pick
    unfold measureOutputs
    rw [concreteShapes_unnamed]
    rfl
  unfold outputBindings
  rw [hmeasure, hmeasure, hmeasure]
  rfl

/-- An engine holds its network, the contract of the network, and what the options say. -/
theorem eq_of_build {c : BuilderConfig} {e : Engine} (h : n.build c = .ok e) :
    ∃ outputs, n.outputBindings = .ok outputs ∧ e = {
      network := n
      inputs := n.inputBindings
      outputs
      reducedPrecision := c.precisions.contains .half
      deviceType := c.device.type } := by
  obtain ⟨-, -, h⟩ := Outcome.bind_eq_ok.mp h
  obtain ⟨-, h⟩ := Outcome.guard_eq_ok.mp h
  obtain ⟨-, -, h⟩ := Outcome.bind_eq_ok.mp h
  obtain ⟨outputs, houtputs, h⟩ := Outcome.bind_eq_ok.mp h
  exact ⟨outputs, houtputs, (Outcome.pure_eq_ok.mp h).symm⟩

/-- Networks build alike. -/
theorem build_alike (h : n.unnamed = n'.unnamed) {c : BuilderConfig} {e e' : Engine}
    (hn : n.build c = .ok e) (hn' : n'.build c = .ok e') : e.unnamed = e'.unnamed := by
  obtain ⟨outputs, houtputs, rfl⟩ := eq_of_build hn
  obtain ⟨outputs', houtputs', rfl⟩ := eq_of_build hn'
  rw [← outputBindings_unnamed, h, outputBindings_unnamed, houtputs'] at houtputs
  obtain rfl := Except.ok.inj houtputs
  simp only [Engine.unnamed, inputBindings, inputs_eq h, h]

end Network

/-! ## Running -/

namespace Engine

variable {e e' : Engine}

theorem inputs_eq (h : e.unnamed = e'.unnamed) : e.inputs = e'.inputs := by
  show e.unnamed.inputs = e'.unnamed.inputs
  rw [h]

theorem outputs_eq (h : e.unnamed = e'.unnamed) : e.outputs = e'.outputs := by
  show e.unnamed.outputs = e'.unnamed.outputs
  rw [h]

theorem runLayer_unnamed (engine : Engine) (slots : Slots) (layer : Layer) :
    (engine.runLayer slots layer).mapError EngineFault.unnamed =
      (engine.unnamed.runLayer slots layer.unnamed).mapError EngineFault.unnamed := by
  unfold runLayer
  rw [Outcome.mapError_bind, Outcome.mapError_bind]
  refine Outcome.bind_congr fun operands _ => ?_
  rw [Outcome.mapError_bind, Outcome.mapError_bind, Outcome.mapError_mapError,
    Outcome.mapError_mapError]
  rfl

theorem execute_unnamed (engine : Engine) (inputs : List Tensor) :
    (engine.execute inputs).mapError EngineError.unnamed =
      (engine.unnamed.execute inputs).mapError EngineError.unnamed := by
  have hstep : ∀ (slots : Slots) (entry : Layer × Nat),
      ((engine.runLayer slots entry.1).mapError (EngineError.inLayer entry.2)).mapError
          EngineError.unnamed =
        ((engine.unnamed.runLayer slots entry.1.unnamed).mapError
          (EngineError.inLayer entry.2)).mapError EngineError.unnamed := by
    intro slots entry
    have hcompose : EngineError.unnamed ∘ EngineError.inLayer entry.2 =
        EngineError.inLayer entry.2 ∘ EngineFault.unnamed := rfl
    rw [Outcome.mapError_mapError, Outcome.mapError_mapError, hcompose,
      ← Outcome.mapError_mapError, ← Outcome.mapError_mapError, runLayer_unnamed]
  have hlayers : ∀ slots, (engine.network.layers.zipIdx.foldlM (fun slots entry =>
        (engine.runLayer slots entry.1).mapError (EngineError.inLayer entry.2)) slots).mapError
          EngineError.unnamed =
      (engine.unnamed.network.layers.zipIdx.foldlM (fun slots entry =>
        (engine.unnamed.runLayer slots entry.1).mapError (EngineError.inLayer entry.2))
          slots).mapError EngineError.unnamed := by
    intro slots
    have hzip : engine.unnamed.network.layers.zipIdx =
        engine.network.layers.zipIdx.map (Prod.map Layer.unnamed id) := Network.zipIdx_unnamed _
    rw [hzip]
    exact Outcome.mapError_foldlM_congr hstep slots _
  simp only [execute, Outcome.mapError_bind]
  refine Outcome.bind_congr fun _ _ => ?_
  refine Outcome.bind_congr fun slots _ => ?_
  rw [hlayers]
  rfl

/-- Engines that differ in the names of layers only compute the same, and their errors differ in
those names only. -/
theorem execute_alike (h : e.unnamed = e'.unnamed) (inputs : List Tensor) :
    (e.execute inputs).mapError EngineError.unnamed =
      (e'.execute inputs).mapError EngineError.unnamed := by
  rw [execute_unnamed, h, ← execute_unnamed]

end Engine

end HybridGraph
