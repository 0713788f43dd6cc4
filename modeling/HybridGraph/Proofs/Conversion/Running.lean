import HybridGraph.Conversion.Registry
/-!
# Running emissions

`Emit.eval` is the run of a computation at a node: its answer and the state that it leaves.  One
lemma for each step says what the step answers; a sequence succeeds exactly if all of it does, and
fails with the first failure:

    (m >>= f).eval site s = (.ok b, s') ↔
      ∃ a next, m.eval site s = (.ok a, next) ∧ (f a).eval site next = (.ok b, s')
                                                                          (Emit.eval_bind_eq_ok)
-/

namespace HybridGraph

namespace Emit

variable {A : Accelerator} {α β : Type}

/-! ## Steps -/

/-- What a computation answers and leaves behind. -/
def eval (m : Emit A α) (site : EmitSite) (s : EmitState A) :
    Except ConversionError α × EmitState A := m site s

variable {site : EmitSite} {s s' : EmitState A}

theorem eval_bind (m : Emit A α) (f : α → Emit A β) (site : EmitSite) (s : EmitState A) :
    (m >>= f).eval site s = match m.eval site s with
      | (.ok a, next) => (f a).eval site next
      | (.error e, next) => (.error e, next) := by
  simp only [eval, bind, ReaderT.bind, ExceptT.bind, ExceptT.mk, StateT.bind]
  rcases m site s with ⟨a | e, next⟩
  · rfl
  · rfl

theorem eval_bind_eq_ok {m : Emit A α} {f : α → Emit A β} {b : β} :
    (m >>= f).eval site s = (.ok b, s') ↔
      ∃ a next, m.eval site s = (.ok a, next) ∧ (f a).eval site next = (.ok b, s') := by
  rw [eval_bind]
  rcases m.eval site s with ⟨a | e, next⟩
  · simp
  · simp [and_assoc]

theorem eval_bind_eq_error {m : Emit A α} {f : α → Emit A β} {e : ConversionError} :
    (m >>= f).eval site s = (.error e, s') ↔ m.eval site s = (.error e, s') ∨
      ∃ a next, m.eval site s = (.ok a, next) ∧ (f a).eval site next = (.error e, s') := by
  rw [eval_bind]
  rcases m.eval site s with ⟨a | e, next⟩
  · simp
  · simp [and_assoc]

@[simp] theorem eval_pure (a : α) : (pure a : Emit A α).eval site s = (.ok a, s) := rfl

@[simp] theorem eval_read : (read : Emit A EmitSite).eval site s = (.ok site, s) := rfl

@[simp] theorem eval_node : (node : Emit A Node).eval site s = (.ok site.node, s) := rfl

@[simp] theorem eval_get : (get : Emit A (EmitState A)).eval site s = (.ok s, s) := rfl

@[simp] theorem eval_set (s' : EmitState A) : (set s' : Emit A PUnit).eval site s = (.ok ⟨⟩, s') :=
  rfl

@[simp] theorem eval_modify (f : EmitState A → EmitState A) :
    (modify f : Emit A PUnit).eval site s = (.ok ⟨⟩, f s) := rfl

@[simp] theorem eval_stop (cause : ConversionCause) :
    (stop cause : Emit A α).eval site s = (.error ⟨site.node.id, site.node.kind, cause⟩, s) := rfl

@[simp] theorem eval_fail (fault : ConversionFault) : (fail fault : Emit A α).eval site s =
    (.error ⟨site.node.id, site.node.kind, .failed fault⟩, s) := rfl

theorem eval_orFail (value? : Option α) (fault : ConversionFault) :
    (orFail value? fault : Emit A α).eval site s = match value? with
      | some a => (.ok a, s)
      | none => (.error ⟨site.node.id, site.node.kind, .failed fault⟩, s) := by
  cases value? with
  | none => rfl
  | some a => rfl

/-- An operand is read through its binding. -/
theorem eval_input (operand : Nat) : (input operand : Emit A TensorRef).eval site s =
    match site.node.inputs[operand]? with
    | none => (.error ⟨site.node.id, site.node.kind, .failed (.missingOperand operand)⟩, s)
    | some v => match s.tensor? v with
      | some tensor => (.ok tensor, s)
      | none => (.error ⟨site.node.id, site.node.kind, .missingTensor v⟩, s) := by
  simp only [input, eval_bind, eval_node, eval_orFail]
  cases site.node.inputs[operand]? with
  | none => rfl
  | some v =>
    simp only [eval_get]
    cases s.tensor? v with
    | none => rfl
    | some tensor => rfl

theorem eval_describe (tensor : TensorRef) : (describe tensor : Emit A TensorSig).eval site s =
    match A.describe? s.network tensor with
    | some desc => (.ok desc, s)
    | none => (.error ⟨site.node.id, site.node.kind, .failed (.unknownTensor tensor)⟩, s) := by
  simp only [describe, eval_bind, eval_get, eval_orFail]
  cases A.describe? s.network tensor with
  | none => rfl
  | some desc => rfl

/-- Adding a layer asks the accelerator, under a name made from the node. -/
theorem eval_layer (kind : LayerKind) (inputs : List TensorRef) :
    (layer kind inputs : Emit A TensorRef).eval site s =
    match A.addLayer s.network kind inputs s!"{site.node.id.text}:{kind.label}" with
    | .error cause => (.error ⟨site.node.id, site.node.kind, .engine cause⟩, s)
    | .ok (network, [tensor]) => (.ok tensor, s.grow network site.node.id)
    | .ok (network, outputs) =>
      (.error ⟨site.node.id, site.node.kind, .failed (.layerOutputs outputs.length)⟩,
        s.grow network site.node.id) := by
  simp only [layer, eval_bind, eval_node, eval_get]
  rcases A.addLayer s.network kind inputs s!"{site.node.id.text}:{kind.label}" with
    cause | ⟨network, _ | ⟨tensor, _ | _⟩⟩
  · rfl
  · rfl
  · rfl
  · rfl

/-! ## Steps that succeed -/

theorem eval_pure_eq_ok {a b : α} :
    (pure a : Emit A α).eval site s = (.ok b, s') ↔ a = b ∧ s = s' := by
  simp

theorem eval_input_eq_ok {operand : Nat} {x : TensorRef} :
    (input operand : Emit A TensorRef).eval site s = (.ok x, s') ↔
      (∃ v, site.node.inputs[operand]? = some v ∧ s.tensor? v = some x) ∧ s = s' := by
  rw [eval_input]
  cases site.node.inputs[operand]? with
  | none => simp
  | some v =>
    cases htensor : s.tensor? v with
    | none => simp [htensor]
    | some tensor => simp [htensor]

theorem eval_describe_eq_ok {tensor : TensorRef} {desc : TensorSig} :
    (describe tensor : Emit A TensorSig).eval site s = (.ok desc, s') ↔
      A.describe? s.network tensor = some desc ∧ s = s' := by
  rw [eval_describe]
  cases A.describe? s.network tensor with
  | none => simp
  | some desc => simp

theorem eval_layer_eq_ok {kind : LayerKind} {inputs : List TensorRef} {x : TensorRef} :
    (layer kind inputs : Emit A TensorRef).eval site s = (.ok x, s') ↔ ∃ network,
      A.addLayer s.network kind inputs s!"{site.node.id.text}:{kind.label}" =
          .ok (network, [x]) ∧ s.grow network site.node.id = s' := by
  rw [eval_layer]
  rcases A.addLayer s.network kind inputs s!"{site.node.id.text}:{kind.label}" with
    cause | ⟨network, _ | ⟨tensor, _ | _⟩⟩
  · simp
  · simp
  · simp only [Prod.mk.injEq, Except.ok.injEq, List.cons.injEq, and_true]
    constructor
    · rintro ⟨rfl, hs⟩
      exact ⟨network, ⟨rfl, rfl⟩, hs⟩
    · rintro ⟨other, ⟨rfl, rfl⟩, hs⟩
      exact ⟨rfl, hs⟩
  · simp

/-! ## Results -/

theorem eval_bindOutput {v : ValueId} {tensor : TensorRef} :
    (bindOutput v tensor : Emit A Unit).eval site s =
    match A.describe? s.network tensor with
    | none => (.error ⟨site.node.id, site.node.kind, .failed (.unknownTensor tensor)⟩, s)
    | some desc =>
      if (site.graph.tensorType? v).all (fits site.truncateWide · desc) then
        (.ok (), s.bind v tensor)
      else
        (.error ⟨site.node.id, site.node.kind,
          .outputMismatch v (site.graph.typeOf v) desc⟩, s) := by
  simp only [bindOutput, eval_bind, eval_read, eval_describe]
  cases A.describe? s.network tensor with
  | none => rfl
  | some desc =>
    dsimp only
    split
    · rfl
    · rfl

end Emit

end HybridGraph
