import HybridGraph.Proofs.Program.Calls
/-!
# Embedded engines

The program that an engine is wrapped into is a single call between one input for each input of the
engine and one output for each output, in their order (`HybridProgram.embedded`).  It runs like the
engine:

    A.load bytes device = .ok engine →
      HybridProgram.embed A bytes device = .ok (embedded bytes engine)                (embed_eq_ok)
    (embedded bytes engine).run interpret inputs = .ok outs →
      A.execute engine inputs = .ok outs                                           (run_embedded)
-/

namespace HybridGraph

variable {A : Accelerator}

/-! ## Consecutive ids -/

/-- Ids of values in the order of the arena. -/
def ValueId.consecutive (start count : Nat) : List ValueId := (List.range' start count).map .mk

namespace ValueId

theorem mem_consecutive {v : ValueId} {start count : Nat} :
    v ∈ consecutive start count ↔ start ≤ v.index ∧ v.index < start + count := by
  unfold consecutive
  rw [List.mem_map]
  constructor
  · rintro ⟨i, hi, rfl⟩
    exact List.mem_range'_1.mp hi
  · intro h
    exact ⟨v.index, List.mem_range'_1.mpr h, rfl⟩

theorem nodup_consecutive (start count : Nat) : (consecutive start count).Nodup :=
  List.Nodup.map (fun _ _ h => ValueId.mk.inj h) List.nodup_range'

theorem length_consecutive (start count : Nat) : (consecutive start count).length = count := by
  rw [consecutive, List.length_map, List.length_range']

theorem consecutive_succ (start count : Nat) :
    consecutive start (count + 1) = ⟨start⟩ :: consecutive (start + 1) count := rfl

/-- A part of an arena is found under consecutive ids. -/
theorem forall₂_consecutive {α : Type} (front xs back : List α) :
    List.Forall₂ (fun (v : ValueId) x => (front ++ xs ++ back)[v.index]? = some x)
      (consecutive front.length xs.length) xs := by
  induction xs generalizing front with
  | nil => exact .nil
  | cons x xs ih =>
    rw [List.length_cons, consecutive_succ]
    have hrest := ih (front ++ [x])
    rw [List.length_append, List.length_singleton] at hrest
    refine .cons (by simp) ?_
    simpa using hrest

end ValueId

/-! ## The program -/

namespace HybridProgram

/-- The value of a binding. -/
def bindingValue (binding : EngineBinding) : ValueInfo := ⟨bindingType binding, some binding.name⟩

theorem addInputs_eq (g : Graph) (bindings : List EngineBinding) :
    addInputs g bindings = ({ g with
      values := g.values ++ (bindings.map bindingValue).toArray
      inputs := g.inputs ++ ValueId.consecutive g.values.size bindings.length },
      ValueId.consecutive g.values.size bindings.length) := by
  induction bindings generalizing g with
  | nil => simp [addInputs, ValueId.consecutive]
  | cons binding rest ih =>
    rw [addInputs, Graph.addInput, Graph.newValue]
    dsimp only
    rw [ih]
    simp [bindingValue, ValueId.consecutive_succ]

theorem addResults_eq (g : Graph) (bindings : List EngineBinding) :
    addResults g bindings = ({ g with
      values := g.values ++ (bindings.map bindingValue).toArray },
      ValueId.consecutive g.values.size bindings.length) := by
  induction bindings generalizing g with
  | nil => simp [addResults, ValueId.consecutive]
  | cons binding rest ih =>
    rw [addResults, Graph.newValue]
    dsimp only
    rw [ih]
    simp [bindingValue, ValueId.consecutive_succ]

/-- The inputs of the program of an engine. -/
def embeddedInputs (engine : A.Engine) : List ValueId :=
  ValueId.consecutive 0 (A.inputs engine).length

/-- The outputs of the program of an engine. -/
def embeddedOutputs (engine : A.Engine) : List ValueId :=
  ValueId.consecutive (A.inputs engine).length (A.outputs engine).length

/-- The call in the program of an engine. -/
def embeddedCall (engine : A.Engine) : Node :=
  { Node.engineCall 0 (embeddedInputs engine) (embeddedOutputs engine) with id := ⟨0⟩ }

/-- The graph of the program of an engine. -/
def embeddedGraph (engine : A.Engine) : Graph where
  name := "embedded_engine"
  values := ((A.inputs engine ++ A.outputs engine).map bindingValue).toArray
  nodes := [embeddedCall engine]
  inputs := embeddedInputs engine
  outputs := embeddedOutputs engine
  nextNode := 1

/-- The engine that the call names. -/
def embeddedEngine (bytes : Digest.Bytes) (engine : A.Engine) : SegmentEngine A where
  segment := 0
  key := ⟨Digest.fnv1a bytes, Digest.fnv1a bytes⟩
  engine
  inputs := List.zipWith bindingPort (embeddedInputs engine) (A.inputs engine)
  outputs := List.zipWith bindingPort (embeddedOutputs engine) (A.outputs engine)

/-- The program of an engine. -/
def embedded (bytes : Digest.Bytes) (engine : A.Engine) : HybridProgram A :=
  ⟨embeddedGraph engine, [embeddedEngine bytes engine]⟩

variable {engine : A.Engine} {bytes : Digest.Bytes}

theorem length_embeddedInputs (engine : A.Engine) :
    (embeddedInputs engine).length = (A.inputs engine).length := ValueId.length_consecutive _ _

theorem length_embeddedOutputs (engine : A.Engine) :
    (embeddedOutputs engine).length = (A.outputs engine).length := ValueId.length_consecutive _ _

theorem verify_embeddedGraph (engine : A.Engine) : (embeddedGraph engine).verify = .ok () := by
  have hsize : (embeddedGraph engine).values.size =
      (A.inputs engine).length + (A.outputs engine).length := by simp [embeddedGraph]
  have hin : ∀ {v : ValueId}, v ∈ embeddedInputs engine ↔ v.index < (A.inputs engine).length := by
    intro v
    simp [embeddedInputs, ValueId.mem_consecutive]
  have hout : ∀ {v : ValueId}, v ∈ embeddedOutputs engine ↔ (A.inputs engine).length ≤ v.index ∧
      v.index < (A.inputs engine).length + (A.outputs engine).length := ValueId.mem_consecutive
  refine Graph.verify_eq_ok.mpr ⟨?_, fun node hn => ?_⟩
  · refine {
      distinct := ValueId.nodup_consecutive _ _
      known := fun v hv => hsize ▸ Nat.lt_add_right _ (hin.mp hv)
      nodes := inOrder_concat.mpr ⟨inOrder_nil _ _, ?_⟩
      outputs := fun v hv => mem_definedBy.mpr (.inr ⟨_, List.mem_cons_self, hv⟩) }
    exact {
      fresh := List.not_mem_nil
      reads := fun v hv => mem_definedBy.mpr (.inl hv)
      distinct := ValueId.nodup_consecutive _ _
      unassigned := fun v hv hdefined => by
        rcases mem_definedBy.mp hdefined with hdefined | ⟨_, hn, -⟩
        · exact Nat.not_lt.mpr (hout.mp hv).1 (hin.mp hdefined)
        · cases hn
      known := fun v hv => hsize ▸ (hout.mp hv).2 }
  · obtain rfl := List.mem_singleton.mp hn
    exact Graph.checkNode_of_isEngineCall rfl

/-- An engine that can be loaded can be embedded. -/
theorem embed_eq_ok {device : Device} (h : A.load bytes device = .ok engine) :
    embed A bytes device = .ok (embedded bytes engine) := by
  have hinputs : addInputs (.empty "embedded_engine") (A.inputs engine) =
      ({ embeddedGraph engine with
        values := ((A.inputs engine).map bindingValue).toArray
        nodes := []
        outputs := []
        nextNode := 0 }, embeddedInputs engine) := by
    rw [addInputs_eq]
    simp [Graph.empty, embeddedGraph, embeddedInputs]
  have houtputs : addResults { embeddedGraph engine with
        values := ((A.inputs engine).map bindingValue).toArray
        nodes := []
        outputs := []
        nextNode := 0 } (A.outputs engine) =
      ({ embeddedGraph engine with
        nodes := []
        outputs := []
        nextNode := 0 }, embeddedOutputs engine) := by
    rw [addResults_eq]
    simp [embeddedGraph, embeddedOutputs]
  unfold embed
  rw [h]
  refine Outcome.bind_eq_ok.mpr ⟨engine, rfl, ?_⟩
  rw [hinputs]
  dsimp only
  rw [houtputs]
  refine Outcome.bind_eq_ok.mpr ⟨(), Outcome.mapError_eq_ok.mpr ?_, rfl⟩
  exact verify_embeddedGraph engine

/-! ## Types -/

/-- The inputs have the types of the bindings, in their order. -/
theorem tensorType?_embeddedInputs (engine : A.Engine) :
    List.Forall₂ (fun v (binding : EngineBinding) => (embeddedGraph engine).tensorType? v =
      some ⟨some binding.dtype, some binding.shape.dimensions⟩) (embeddedInputs engine)
      (A.inputs engine) := by
  refine (ValueId.forall₂_consecutive [] (A.inputs engine) (A.outputs engine)).imp ?_
  intro v binding hv
  rw [List.nil_append] at hv
  simp [Graph.tensorType?, Graph.type?, Graph.value?, embeddedGraph, hv, bindingValue, bindingType,
    ValueType.tensor?, -List.map_append]

/-- So do the outputs. -/
theorem tensorType?_embeddedOutputs (engine : A.Engine) :
    List.Forall₂ (fun v (binding : EngineBinding) => (embeddedGraph engine).tensorType? v =
      some ⟨some binding.dtype, some binding.shape.dimensions⟩) (embeddedOutputs engine)
      (A.outputs engine) := by
  refine (ValueId.forall₂_consecutive (A.inputs engine) (A.outputs engine) []).imp ?_
  intro v binding hv
  rw [List.append_nil] at hv
  simp [Graph.tensorType?, Graph.type?, Graph.value?, embeddedGraph, hv, bindingValue, bindingType,
    ValueType.tensor?, -List.map_append]

/-! ## Ports -/

/-- The ports of bindings stand for the values they are made of, -/
theorem value_bindingPort {vs : List ValueId} {bindings : List EngineBinding}
    (h : vs.length = bindings.length) :
    (List.zipWith bindingPort vs bindings).map EnginePort.value = vs := by
  rw [List.map_zipWith]
  exact List.ext_getElem (by simp [h]) fun i _ _ => by simp [bindingPort]

/-- and convert nothing. -/
theorem dtypes_bindingPort {vs : List ValueId} {bindings : List EngineBinding}
    (h : vs.length = bindings.length) :
    List.Forall₂ (fun (port : EnginePort) (binding : EngineBinding) =>
      port.declared = some binding.dtype ∧ port.engine = binding.dtype)
      (List.zipWith bindingPort vs bindings) bindings := by
  induction bindings generalizing vs with
  | nil => simp
  | cons binding bindings ih =>
    cases vs with
    | nil => cases h
    | cons v vs => exact .cons ⟨rfl, rfl⟩ (ih (Nat.succ.inj h))

theorem singleCall_embedded (bytes : Digest.Bytes) (engine : A.Engine) :
    (embedded bytes engine).SingleCall (embeddedCall engine) (embeddedEngine bytes engine) where
  nodes := rfl
  kind := rfl
  target := ⟨0, engineOf_eq_ok.mpr ⟨engineNumber_engineCall _ _ _ _, rfl⟩⟩
  inputs := value_bindingPort (length_embeddedInputs engine)
  outputs := ValueId.nodup_consecutive _ _

/-- The results of the engine have the element types of its contract. -/
def Contracted (engine : A.Engine) : Prop :=
  ∀ ts results, A.execute engine ts = .ok results →
    List.Forall₂ (fun (binding : EngineBinding) (t : Tensor) => t.dtype = binding.dtype)
      (A.outputs engine) results

theorem plain_embedded (h : Contracted engine) {inputs : List Tensor} {start : Bindings}
    (hstart : (embeddedGraph engine).bindInputs inputs = .ok start) :
    (embeddedEngine bytes engine).Plain start where
  inputs port hport t ht := by
    have hlen := length_embeddedInputs engine
    have htypes := tensorType?_embeddedInputs engine
    rw [← value_bindingPort hlen, List.forall₂_map_left_iff] at htypes
    obtain ⟨binding, -, htype, -, hengine⟩ :=
      Outcome.exists_of_forall₂ (Outcome.forall₂_and htypes (dtypes_bindingPort hlen)) hport
    rw [hengine]
    exact Graph.dtype_of_tensor? (ValueId.nodup_consecutive _ _) hstart ht
      (congrArg (Option.bind · TensorType.dtype) htype)
  outputs ts results hresults := by
    have hports := dtypes_bindingPort (length_embeddedOutputs engine)
    refine Outcome.forall₂_of_forall₂ hports.flip (h ts results hresults) ?_
    rintro binding - port t ⟨hdeclared, -⟩ ht d hd
    exact ht.trans (Option.some.inj (hdeclared.symm.trans hd))

/-! ## Top theorem -/

/-- The program of an engine runs like the engine, on tensors that fit its contract. -/
theorem run_embedded (h : Contracted engine) {interpret : Interpreter} {inputs outs : List Tensor}
    (hrun : (embedded bytes engine).run interpret inputs = .ok outs) :
    A.execute engine inputs = .ok outs ∧
      List.Forall₂ (fun (binding : EngineBinding) (t : Tensor) => t.dtype = binding.dtype)
        (A.inputs engine) inputs := by
  obtain ⟨start, bound, ts, results, hstart, hts, hresults, hcalled, -, houts⟩ :=
    (singleCall_embedded bytes engine).exists_of_run hrun fun _ => plain_embedded h
  have hinputs : List.Forall₂ (fun v t => start.tensor? v = some t) (embeddedInputs engine)
      inputs := Graph.tensor?_of_bindInputs (ValueId.nodup_consecutive _ _) hstart
  obtain rfl := eq_of_forall₂_some hts hinputs
  obtain rfl := eq_of_forall₂_some hcalled houts
  refine ⟨hresults, ?_⟩
  refine Outcome.forall₂_of_forall₂ (tensorType?_embeddedInputs engine)
    (Graph.dtype_of_bindInputs hstart) fun v _ binding t htype ht => ht binding.dtype ?_
  exact congrArg (Option.bind · TensorType.dtype) htype

end HybridProgram

end HybridGraph
