import HybridGraph.Engine.Reference
import HybridGraph.Proofs.Outcome
import HybridGraph.Proofs.Tensor.Stored
/-!
# Stored engines

The bytes of an engine are the text of its file.  An engine is loaded as it was saved if its file is
read as it was written:

    (S.read (S.write engine.fileJson)).bind ofFileJson? = some (fileMagic, fileVersion, engine) →
      engine.deviceType = device.type →
        loadWith S (engine.saveWith S) device = .ok engine                       (loadWith_saveWith)

An engine is storable if its numbers fit their machine words and its floats are finite.  Under a
faithful serializer it is then loaded from its bytes as it was saved, on every device of its kind:

    S.Faithful → engine.Storable → S.Recovers Engine.ofJson? engine.toJson engine  (Engine.recovers)
    S.Faithful → engine.Storable → engine.deviceType = device.type →
      Engine.loadWith S (engine.saveWith S) device = .ok engine            (Engine.load_of_storable)
-/

namespace HybridGraph

/-! ## Bytes -/

theorem toList_loop (bytes : ByteArray) (i : Nat) (done : List UInt8) :
    ByteArray.toList.loop bytes i done = done.reverse ++ bytes.data.toList.drop i := by
  fun_induction ByteArray.toList.loop bytes i done with
  | case1 i done h ih =>
    have hlt : i < bytes.data.toList.length := h
    have hget : bytes.get! i = bytes.data.toList[i] := getElem!_pos bytes.data i h
    rw [ih, List.drop_eq_getElem_cons hlt, List.reverse_cons, List.append_assoc, hget]
    rfl
  | case2 i done h =>
    have hle : bytes.data.toList.length ≤ i := Nat.not_lt.mp h
    rw [List.drop_eq_nil_of_le hle, List.append_nil]

theorem fromUTF8?_toUTF8 (text : String) :
    String.fromUTF8? ⟨text.toUTF8.toList.toArray⟩ = some text := by
  have hbytes : (⟨text.toUTF8.toList.toArray⟩ : ByteArray) = text.toUTF8 := by
    rw [ByteArray.toList, toList_loop]
    rfl
  rw [hbytes, String.fromUTF8?]
  exact dif_pos text.isValidUTF8

/-! ## Engines -/

deriving instance DecidableEq for Elements, Tensor, Activation, LayerKind, Layer, NetworkInput,
  NetworkOutput, Network, Engine

namespace Engine

theorem loadWith_saveWith {S : Json.Serializer} {engine : Engine} {device : Device}
    (hfile : (S.read (S.write engine.fileJson)).bind ofFileJson? =
      some (fileMagic, fileVersion, engine))
    (hdevice : engine.deviceType = device.type) :
    loadWith S (engine.saveWith S) device = .ok engine := by
  have hread : readWith S (engine.saveWith S) = .ok engine := by
    unfold readWith saveWith
    rw [fromUTF8?_toUTF8, Option.bind_some, hfile]
    rfl
  refine Outcome.bind_eq_ok.mpr ⟨engine, Outcome.mapError_eq_ok.mpr hread, ?_⟩
  exact Outcome.guard_eq_ok.mpr ⟨not_not_intro hdevice, rfl⟩

/-- The text of this library is read character by character. -/
theorem load_save {engine : Engine} {device : Device}
    (hfile : (Json.ofChars? engine.fileJson.chars).bind ofFileJson? =
      some (fileMagic, fileVersion, engine))
    (hdevice : engine.deviceType = device.type) : load engine.save device = .ok engine := by
  have hread : (Json.Serializer.compact.read (Json.Serializer.compact.write engine.fileJson)).bind
      ofFileJson? = some (fileMagic, fileVersion, engine) := by
    rw [Json.Serializer.read_compact, Json.Serializer.write_compact, Json.parse?_compact, hfile]
  exact loadWith_saveWith hread hdevice

end Engine

end HybridGraph

namespace HybridGraph

open Json Json.Serializer

variable {S : Json.Serializer}

/-! ## Layers -/

@[simp]
theorem TensorRef.depth_toJson (r : TensorRef) : r.toJson.depth = 0 := rfl

theorem depth_refs_le (refs : List TensorRef) : (list TensorRef.toJson refs).depth ≤ 1 :=
  depth_list_le fun _ _ => Nat.le_refl 0

theorem TensorRef.recovers (hS : S.Faithful) {r : TensorRef} (h : r.index < Number.twoPow 32) :
    S.Recovers TensorRef.ofJson? r.toJson r := (recovers_index hS h).map TensorRef.mk

theorem TensorSig.recovers (hS : S.Faithful) {d : TensorSig}
    (h : ∀ extent ∈ d.dims, extent.Storable) :
    S.Recovers TensorSig.ofJson? d.toJson d := by
  obtain ⟨jdtype, hdtype, hdtype'⟩ := d.dtype.recovers hS
  obtain ⟨jdims, hdims, hdims'⟩ :=
    recovers_list fun extent he => Dimension.recovers hS (h extent he)
  refine ⟨.object [("dtype", jdtype), ("dims", jdims)], reread?_fields ?_, ?_⟩
  · simp [rereadFields?, hdtype, hdims]
  · simp [ofJson?, hdtype', hdims']

theorem TensorSig.depth_toJson_le (d : TensorSig) : d.toJson.depth ≤ 3 := by
  have hdims : (list Dimension.toJson d.dims).depth ≤ 2 :=
    depth_list_le fun extent _ => extent.depth_toJson_le
  simp only [toJson, depth, fieldsDepth, DType.depth_toJson]
  omega

/-- The bounds and slopes are finite. -/
def Activation.Storable : Activation → Prop
  | .clip low high => low.isFinite = true ∧ high.isFinite = true
  | .leakyRelu slope => slope.isFinite = true
  | .elu alpha => alpha.isFinite = true
  | _ => True

theorem Activation.recovers (hS : S.Faithful) {a : Activation} (h : a.Storable) :
    S.Recovers Activation.ofJson? a.toJson a := by
  cases a with
  | relu => exact ⟨.string "Relu", reread?_string hS _, rfl⟩
  | sigmoid => exact ⟨.string "Sigmoid", reread?_string hS _, rfl⟩
  | tanh => exact ⟨.string "Tanh", reread?_string hS _, rfl⟩
  | clip low high =>
    obtain ⟨jlow, hlow, hlow'⟩ := recovers_double hS h.1
    obtain ⟨jhigh, hhigh, hhigh'⟩ := recovers_double hS h.2
    refine ⟨.tagged "Clip" (.object [("min", jlow), ("max", jhigh)]),
      reread?_tagged (reread?_fields ?_), ?_⟩
    · simp [rereadFields?, hlow, hhigh]
    · simp [ofJson?, hlow', hhigh']
  | leakyRelu slope =>
    obtain ⟨jslope, hslope, hslope'⟩ := recovers_double hS h
    refine ⟨.tagged "LeakyRelu" (.object [("alpha", jslope)]),
      reread?_tagged (reread?_fields ?_), ?_⟩
    · simp [rereadFields?, hslope]
    · simp [ofJson?, hslope']
  | elu alpha =>
    obtain ⟨jalpha, halpha, halpha'⟩ := recovers_double hS h
    refine ⟨.tagged "Elu" (.object [("alpha", jalpha)]), reread?_tagged (reread?_fields ?_), ?_⟩
    · simp [rereadFields?, halpha]
    · simp [ofJson?, halpha']

theorem Activation.depth_toJson_le (a : Activation) : a.toJson.depth ≤ 2 := by
  cases a <;> simp [toJson, depth, fieldsDepth]

theorem UnaryOp.recovers (hS : S.Faithful) (op : UnaryOp) :
    S.Recovers (unit? UnaryOp.ofTag?) (.string op.tag) op :=
  recovers_unit hS (by cases op <;> rfl)

theorem BinaryOp.recovers (hS : S.Faithful) (op : BinaryOp) :
    S.Recovers (unit? BinaryOp.ofTag?) (.string op.tag) op :=
  recovers_unit hS (by cases op <;> rfl)

theorem ReduceOp.recovers (hS : S.Faithful) (op : ReduceOp) :
    S.Recovers (unit? ReduceOp.ofTag?) (.string op.tag) op :=
  recovers_unit hS (by cases op <;> rfl)

/-- Numbers fit their words, floats are finite. -/
def LayerKind.Storable : LayerKind → Prop
  | .constant value => value.Storable
  | .activation function => function.Storable
  | .pad pre post value =>
    (∀ n ∈ pre, Text.minInt ≤ n ∧ n ≤ Text.maxInt) ∧
      (∀ n ∈ post, Text.minInt ≤ n ∧ n ≤ Text.maxInt) ∧ value.isFinite = true
  | .shuffle permutation target =>
    (∀ axes ∈ permutation, ∀ n ∈ axes, n ≤ Text.maxWord) ∧
      ∀ extents ∈ target, ∀ n ∈ extents, Text.minInt ≤ n ∧ n ≤ Text.maxInt
  | .softmax axis => axis ≤ Text.maxWord
  | .reduce _ axes _ => ∀ n ∈ axes, n ≤ Text.maxWord
  | _ => True

theorem LayerKind.recovers (hS : S.Faithful) {kind : LayerKind} (h : kind.Storable) :
    S.Recovers LayerKind.ofJson? kind.toJson kind := by
  cases kind with
  | constant value =>
    exact (Tensor.recovers hS h).tagged fun j hj => by simp [ofJson?, hj]
  | activation function =>
    exact (Activation.recovers hS h).tagged fun j hj => by simp [ofJson?, hj]
  | unary op => exact (op.recovers hS).tagged fun j hj => by simp [ofJson?, hj]
  | elementWise op =>
    exact (op.recovers hS).tagged fun j hj => by simp [ofJson?, hj]
  | parametricRelu => exact ⟨.string "ParametricRelu", reread?_string hS _, rfl⟩
  | matrixMultiply => exact ⟨.string "MatrixMultiply", reread?_string hS _, rfl⟩
  | pad pre post value =>
    obtain ⟨jpre, hpre, hpre'⟩ := recovers_words hS h.1
    obtain ⟨jpost, hpost, hpost'⟩ := recovers_words hS h.2.1
    obtain ⟨jvalue, hvalue, hvalue'⟩ := recovers_double hS h.2.2
    refine ⟨.tagged "Pad" (.object [("pre", jpre), ("post", jpost), ("value", jvalue)]),
      reread?_tagged (reread?_fields ?_), ?_⟩
    · simp [rereadFields?, hpre, hpost, hvalue]
    · simp [ofJson?, hpre', hpost', hvalue']
  | shuffle permutation target =>
    have haxes : S.Recovers (option? extents?) (.option .nats permutation) permutation :=
      recovers_option hS rfl fun axes haxes => recovers_extents hS (h.1 axes haxes)
    have hextents : S.Recovers (option? (list? (int? 64))) (.option .ints target) target :=
      recovers_option hS rfl fun extents hextents => recovers_words hS (h.2 extents hextents)
    obtain ⟨jaxes, haxes, haxes'⟩ := haxes
    obtain ⟨jextents, hextents, hextents'⟩ := hextents
    refine ⟨.tagged "Shuffle" (.object [("permutation", jaxes), ("reshape", jextents)]),
      reread?_tagged (reread?_fields ?_), ?_⟩
    · simp [rereadFields?, haxes, hextents]
    · simp [ofJson?, haxes', hextents']
  | softmax axis =>
    obtain ⟨jaxis, haxis, haxis'⟩ := recovers_size hS h
    refine ⟨.tagged "SoftMax" (.object [("axis", jaxis)]), reread?_tagged (reread?_fields ?_), ?_⟩
    · simp [rereadFields?, haxis]
    · simp [ofJson?, haxis']
  | reduce op axes keepDims =>
    obtain ⟨jop, hop, hop'⟩ := op.recovers hS
    obtain ⟨jaxes, haxes, haxes'⟩ := recovers_extents hS h
    obtain ⟨jkeep, hkeep, hkeep'⟩ := recovers_bool hS keepDims
    refine ⟨.tagged "Reduce" (.object [("op", jop), ("axes", jaxes), ("keep_dims", jkeep)]),
      reread?_tagged (reread?_fields ?_), ?_⟩
    · simp [rereadFields?, hop, haxes, hkeep]
    · simp [ofJson?, hop', haxes', hkeep']
  | identity dtype =>
    obtain ⟨jdtype, hdtype, hdtype'⟩ := dtype.recovers hS
    refine ⟨.tagged "Identity" (.object [("dtype", jdtype)]),
      reread?_tagged (reread?_fields ?_), ?_⟩
    · simp [rereadFields?, hdtype]
    · simp [ofJson?, hdtype']

theorem LayerKind.depth_toJson_le (kind : LayerKind) : kind.toJson.depth ≤ 4 := by
  cases kind with
  | constant value =>
    have hvalue := value.depth_toJson_le
    rw [toJson, depth_tagged]
    omega
  | activation function =>
    have hfunction := function.depth_toJson_le
    rw [toJson, depth_tagged]
    omega
  | pad pre post value =>
    have hpre := depth_ints_le pre
    have hpost := depth_ints_le post
    rw [toJson, depth_tagged]
    simp only [depth, fieldsDepth]
    omega
  | shuffle permutation target =>
    have haxes : (option nats permutation).depth ≤ 1 :=
      depth_option_le fun axes _ => depth_nats_le axes
    have hextents : (option ints target).depth ≤ 1 :=
      depth_option_le fun extents _ => depth_ints_le extents
    rw [toJson, depth_tagged]
    simp only [depth, fieldsDepth]
    omega
  | softmax axis => simp [toJson, depth, fieldsDepth, nat]
  | reduce op axes keepDims =>
    have haxes := depth_nats_le axes
    rw [toJson, depth_tagged]
    simp only [depth, fieldsDepth]
    omega
  | identity dtype => simp [toJson, depth, fieldsDepth]
  | _ => simp [toJson, depth]

/-- Numbers fit their words, floats are finite. -/
structure Layer.Storable (layer : Layer) : Prop where
  kind : layer.kind.Storable
  inputs : ∀ r ∈ layer.inputs, r.index < Number.twoPow 32
  output : layer.output.index < Number.twoPow 32

theorem Layer.recovers (hS : S.Faithful) {layer : Layer} (h : layer.Storable) :
    S.Recovers Layer.ofJson? layer.toJson layer := by
  obtain ⟨jname, hname, hname'⟩ := recovers_string hS layer.name
  obtain ⟨jkind, hkind, hkind'⟩ := LayerKind.recovers hS h.kind
  obtain ⟨jin, hin, hin'⟩ := recovers_list fun r hr => TensorRef.recovers hS (h.inputs r hr)
  obtain ⟨jout, hout, hout'⟩ := TensorRef.recovers hS h.output
  refine ⟨.object [("name", jname), ("kind", jkind), ("inputs", jin), ("output", jout)],
    reread?_fields ?_, ?_⟩
  · simp [rereadFields?, hname, hkind, hin, hout]
  · simp [ofJson?, hname', hkind', hin', hout']

theorem Layer.depth_toJson_le (layer : Layer) : layer.toJson.depth ≤ 5 := by
  have hkind := layer.kind.depth_toJson_le
  have hin := depth_refs_le layer.inputs
  simp only [toJson, depth, fieldsDepth, TensorRef.depth_toJson]
  omega

/-! ## Networks -/

/-- Numbers fit their words. -/
structure NetworkInput.Storable (input : NetworkInput) : Prop where
  tensor : input.tensor.index < Number.twoPow 32
  shape : input.shape.Storable

theorem NetworkInput.recovers (hS : S.Faithful) {input : NetworkInput} (h : input.Storable) :
    S.Recovers NetworkInput.ofJson? input.toJson input := by
  obtain ⟨jname, hname, hname'⟩ := recovers_string hS input.name
  obtain ⟨jtensor, htensor, htensor'⟩ := TensorRef.recovers hS h.tensor
  obtain ⟨jdtype, hdtype, hdtype'⟩ := input.dtype.recovers hS
  obtain ⟨jshape, hshape, hshape'⟩ := ShapeSpec.recovers hS h.shape
  refine ⟨.object [("name", jname), ("tensor", jtensor), ("dtype", jdtype), ("shape", jshape)],
    reread?_fields ?_, ?_⟩
  · simp [rereadFields?, hname, htensor, hdtype, hshape]
  · simp [ofJson?, hname', htensor', hdtype', hshape']

theorem NetworkOutput.recovers (hS : S.Faithful) {output : NetworkOutput}
    (h : output.tensor.index < Number.twoPow 32) :
    S.Recovers NetworkOutput.ofJson? output.toJson output := by
  obtain ⟨jname, hname, hname'⟩ := recovers_string hS output.name
  obtain ⟨jtensor, htensor, htensor'⟩ := TensorRef.recovers hS h
  refine ⟨.object [("name", jname), ("tensor", jtensor)], reread?_fields ?_, ?_⟩
  · simp [rereadFields?, hname, htensor]
  · simp [ofJson?, hname', htensor']

theorem NetworkInput.depth_toJson_le (input : NetworkInput) : input.toJson.depth ≤ 4 := by
  have hshape := input.shape.depth_toJson_le
  simp only [toJson, depth, fieldsDepth, TensorRef.depth_toJson, DType.depth_toJson]
  omega

theorem NetworkOutput.depth_toJson_le (output : NetworkOutput) : output.toJson.depth ≤ 1 :=
  Nat.le_refl 1

/-- Numbers fit their words, floats are finite. -/
structure Network.Storable (n : Network) : Prop where
  tensors : ∀ d ∈ n.tensors, ∀ extent ∈ d.dims, extent.Storable
  inputs : ∀ input ∈ n.inputs, input.Storable
  layers : ∀ layer ∈ n.layers, layer.Storable
  outputs : ∀ output ∈ n.outputs, output.tensor.index < Number.twoPow 32

theorem Network.recovers (hS : S.Faithful) {n : Network} (h : n.Storable) :
    S.Recovers Network.ofJson? n.toJson n := by
  have htensors : S.Recovers (list? TensorSig.ofJson?) (.list TensorSig.toJson n.tensors.toList)
      n.tensors.toList :=
    recovers_list fun d hd => TensorSig.recovers hS (h.tensors d (Array.mem_toList_iff.mp hd))
  obtain ⟨jtensors, htensors, htensors'⟩ := htensors
  obtain ⟨jin, hin, hin'⟩ :=
    recovers_list fun input hi => NetworkInput.recovers hS (h.inputs input hi)
  obtain ⟨jlayers, hlayers, hlayers'⟩ := recovers_list fun layer hl =>
    Layer.recovers hS (h.layers layer hl)
  obtain ⟨jout, hout, hout'⟩ := recovers_list fun output ho =>
    NetworkOutput.recovers hS (h.outputs output ho)
  refine ⟨.object [("tensors", jtensors), ("inputs", jin), ("layers", jlayers),
    ("outputs", jout)], reread?_fields ?_, ?_⟩
  · simp [rereadFields?, htensors, hin, hlayers, hout]
  · simp [ofJson?, htensors', hin', hlayers', hout']

theorem Network.depth_toJson_le (n : Network) : n.toJson.depth ≤ 7 := by
  have htensors : (list TensorSig.toJson n.tensors.toList).depth ≤ 4 :=
    depth_list_le fun d _ => d.depth_toJson_le
  have hin : (list NetworkInput.toJson n.inputs).depth ≤ 5 :=
    depth_list_le fun input _ => input.depth_toJson_le
  have hlayers : (list Layer.toJson n.layers).depth ≤ 6 :=
    depth_list_le fun layer _ => layer.depth_toJson_le
  have hout : (list NetworkOutput.toJson n.outputs).depth ≤ 2 :=
    depth_list_le fun output _ => output.depth_toJson_le
  simp only [toJson, depth, fieldsDepth]
  omega

/-! ## Engines -/

theorem EngineBinding.depth_toJson_le (b : EngineBinding) : b.toJson.depth ≤ 4 := by
  have hshape := b.shape.depth_toJson_le
  simp only [toJson, depth, fieldsDepth, DType.depth_toJson]
  omega

theorem EngineBinding.recovers (hS : S.Faithful) {b : EngineBinding} (h : b.shape.Storable) :
    S.Recovers EngineBinding.ofJson? b.toJson b := by
  obtain ⟨jname, hname, hname'⟩ := recovers_string hS b.name
  obtain ⟨jdtype, hdtype, hdtype'⟩ := b.dtype.recovers hS
  obtain ⟨jshape, hshape, hshape'⟩ := ShapeSpec.recovers hS h
  refine ⟨.object [("name", jname), ("dtype", jdtype), ("shape", jshape)], reread?_fields ?_, ?_⟩
  · simp [rereadFields?, hname, hdtype, hshape]
  · simp [ofJson?, hname', hdtype', hshape']

theorem DeviceType.recovers (hS : S.Faithful) (t : DeviceType) :
    S.Recovers (unit? DeviceType.ofTag?) (.string t.tag) t :=
  recovers_unit hS (by cases t <;> rfl)

namespace Engine

variable {engine : Engine}

/-- Numbers fit their words, floats are finite. -/
structure Storable (engine : Engine) : Prop where
  network : engine.network.Storable
  inputs : ∀ b ∈ engine.inputs, b.shape.Storable
  outputs : ∀ b ∈ engine.outputs, b.shape.Storable

theorem recovers (hS : S.Faithful) (h : engine.Storable) :
    S.Recovers Engine.ofJson? engine.toJson engine := by
  obtain ⟨jnetwork, hnetwork, hnetwork'⟩ := Network.recovers hS h.network
  obtain ⟨jin, hin, hin'⟩ := recovers_list fun b hb => EngineBinding.recovers hS (h.inputs b hb)
  obtain ⟨jout, hout, hout'⟩ := recovers_list fun b hb => EngineBinding.recovers hS (h.outputs b hb)
  obtain ⟨jreduced, hreduced, hreduced'⟩ := recovers_bool hS engine.reducedPrecision
  obtain ⟨jdevice, hdevice, hdevice'⟩ := engine.deviceType.recovers hS
  refine ⟨.object [("network", jnetwork), ("inputs", jin), ("outputs", jout),
    ("reduced_precision", jreduced), ("device_type", jdevice)], reread?_fields ?_, ?_⟩
  · simp [rereadFields?, hnetwork, hin, hout, hreduced, hdevice]
  · simp [ofJson?, hnetwork', hin', hout', hreduced', hdevice']

theorem recovers_file (hS : S.Faithful) (h : engine.Storable) :
    S.Recovers ofFileJson? engine.fileJson (fileMagic, fileVersion, engine) := by
  obtain ⟨jmagic, hmagic, hmagic'⟩ := recovers_string hS fileMagic
  obtain ⟨jversion, hversion, hversion'⟩ := recovers_index hS (by decide : fileVersion < _)
  obtain ⟨jplan, hplan, hplan'⟩ := recovers hS h
  refine ⟨.object [("magic", jmagic), ("version", jversion), ("plan", jplan)],
    reread?_fields ?_, ?_⟩
  · simp [rereadFields?, hmagic, hversion, hplan]
  · simp [ofFileJson?, hmagic', hversion', hplan']

theorem depth_fileJson_le (engine : Engine) : engine.fileJson.depth ≤ 9 := by
  have hnetwork := engine.network.depth_toJson_le
  have hin : (list EngineBinding.toJson engine.inputs).depth ≤ 5 :=
    depth_list_le fun b _ => b.depth_toJson_le
  have hout : (list EngineBinding.toJson engine.outputs).depth ≤ 5 :=
    depth_list_le fun b _ => b.depth_toJson_le
  have hversion : (nat fileVersion).depth = 0 := rfl
  simp only [fileJson, toJson, depth, fieldsDepth]
  omega

/-- A storable engine is loaded from its bytes on every device of its kind. -/
theorem load_of_storable (hS : S.Faithful) (h : engine.Storable) {device : Device}
    (hdevice : engine.deviceType = device.type) :
    loadWith S (engine.saveWith S) device = .ok engine :=
  loadWith_saveWith ((recovers_file hS h).read hS ((depth_fileJson_le engine).trans (by decide)))
    hdevice

end Engine

end HybridGraph
