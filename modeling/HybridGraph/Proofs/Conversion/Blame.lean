import HybridGraph.Proofs.Conversion.Positional
import HybridGraph.Proofs.Conversion.Running
/-!
# What converting a node can do

A positional computation leaves the bindings alone, and once the operands of its node are bound it
never reports what only a compiler at odds with itself would: that a converter runs on a node which
its predicate refuses, or that an operand has no tensor (`ConversionCause.IsInternal`).  So
converting a supported node either binds its results, one tensor each, or blames the node for
something else:

    r.convert g truncateWide s node = (.ok (), s') → s'.Extends s node.outputs
    r.convert g truncateWide s node = (.error e, s') → ¬ e.cause.IsInternal
-/

namespace HybridGraph

variable {A : Accelerator} {α β : Type}

/-- Something that a compiler reports only if its parts disagree. -/
def ConversionCause.IsInternal : ConversionCause → Prop
  | .unsupported _ | .missingTensor _ => True
  | _ => False

namespace EmitState

/-- Every value stands for a tensor. -/
def Binds (s : EmitState A) (vs : List ValueId) : Prop := ∀ v ∈ vs, (s.tensor? v).isSome

/-- Values have been bound to tensors, in order, and nothing else has. -/
def Extends (s' s : EmitState A) (vs : List ValueId) : Prop :=
  ∃ tensors, tensors.length = vs.length ∧ s'.bound = (vs.zip tensors).reverse ++ s.bound

theorem Binds.of_bound_eq {s s' : EmitState A} {vs : List ValueId} (h : s.Binds vs)
    (hbound : s'.bound = s.bound) : s'.Binds vs := by
  intro v hv
  rw [tensor?, hbound]
  exact h v hv

end EmitState

/-! ## Positional computations -/

namespace Emit.Positional

variable {m : Emit A α} {site : EmitSite} {s s' : EmitState A}

/-- Positional computations bind nothing. -/
theorem bound_eq (h : m.Positional) (site : EmitSite) (s : EmitState A) :
    (m.eval site s).2.bound = s.bound := by
  induction h generalizing s with
  | done a => rfl
  | fail fault => rfl
  | input operand =>
    rw [eval_input]
    split
    · rfl
    · split <;> rfl
  | describe tensor =>
    rw [eval_describe]
    split <;> rfl
  | layer kind inputs =>
    rw [eval_layer]
    split <;> rfl
  | narrowing hf hsame ih => exact ih site s
  | node hf hsame ih => exact ih site.node s
  | bind hm hf ihm ihf =>
    have hfirst := ihm s
    rw [eval_bind]
    split
    · next a next h =>
      rw [h] at hfirst
      rw [ihf a next, hfirst]
    · next e next h =>
      rw [h] at hfirst
      exact hfirst

/-- What every layer keeps of a network when it is added is kept. -/
theorem network_induction {p : A.Network → Prop}
    (hp : ∀ {n kind inputs name n' outs}, A.addLayer n kind inputs name = .ok (n', outs) →
      p n → p n')
    (h : m.Positional) (hs : p s.network) : p (m.eval site s).2.network := by
  induction h generalizing s with
  | done a => exact hs
  | fail fault => exact hs
  | input operand =>
    rw [eval_input]
    split
    · exact hs
    · split <;> exact hs
  | describe tensor =>
    rw [eval_describe]
    split <;> exact hs
  | layer kind inputs =>
    rw [eval_layer]
    split
    · exact hs
    · next network tensor hadd => exact hp hadd hs
    · next network outs hadd => exact hp hadd hs
  | narrowing hf hsame ih => exact ih site hs
  | node hf hsame ih => exact ih site.node hs
  | bind hm hf ihm ihf =>
    have hfirst := ihm hs
    rw [eval_bind]
    split
    · next a next h =>
      rw [h] at hfirst
      exact ihf a hfirst
    · next e next h =>
      rw [h] at hfirst
      exact hfirst

/-- What is reported against a node with bound operands is not internal. -/
theorem not_isInternal (h : m.Positional) (hbinds : s.Binds site.node.inputs)
    {e : ConversionError} (he : m.eval site s = (.error e, s')) :
    ¬ e.cause.IsInternal := by
  induction h generalizing s s' with
  | done a => cases he
  | fail fault =>
    cases he
    exact not_false
  | input operand =>
    rw [eval_input] at he
    split at he
    · cases he
      exact not_false
    · next v hv =>
      obtain ⟨tensor, htensor⟩ := Option.isSome_iff_exists.mp (hbinds v (List.mem_of_getElem? hv))
      rw [htensor] at he
      cases he
  | describe tensor =>
    rw [eval_describe] at he
    split at he
    · cases he
    · cases he
      exact not_false
  | layer kind inputs =>
    rw [eval_layer] at he
    split at he
    · cases he
      exact not_false
    · cases he
    · cases he
      exact not_false
  | narrowing hf hsame ih => exact ih site hbinds he
  | node hf hsame ih => exact ih site.node hbinds he
  | bind hm hf ihm ihf =>
    rcases eval_bind_eq_error.mp he with he | ⟨a, next, ha, he⟩
    · exact ihm hbinds he
    · refine ihf a (hbinds.of_bound_eq ?_) he
      have hbound := bound_eq hm site s
      rwa [ha] at hbound

end Emit.Positional

/-! ## Results -/

namespace Emit

variable {site : EmitSite} {s s' : EmitState A}

theorem eval_bindOutput_eq_ok {v : ValueId} {tensor : TensorRef}
    (h : (bindOutput v tensor).eval site s = (.ok (), s')) : s' = s.bind v tensor := by
  rw [eval_bindOutput] at h
  split at h
  · cases h
  · split at h
    · exact (Prod.mk.inj h).2.symm
    · cases h

theorem eval_bindOutput_eq_error {v : ValueId} {tensor : TensorRef} {e : ConversionError}
    (h : (bindOutput v tensor).eval site s = (.error e, s')) : ¬ e.cause.IsInternal := by
  rw [eval_bindOutput] at h
  split at h
  · cases h
    exact not_false
  · split at h
    · cases h
    · cases h
      exact not_false

/-- Results are bound in their order. -/
theorem eval_forM_bindOutput_eq_ok {entries : List (ValueId × TensorRef)}
    (h : (entries.forM fun entry => bindOutput entry.1 entry.2).eval site s = (.ok (), s')) :
    s' = { s with bound := entries.reverse ++ s.bound } := by
  induction entries generalizing s with
  | nil =>
    obtain rfl := (Prod.mk.inj h).2
    rfl
  | cons entry entries ih =>
    obtain ⟨⟨⟩, next, hfirst, hrest⟩ := eval_bind_eq_ok.mp h
    rw [ih hrest, eval_bindOutput_eq_ok hfirst]
    simp [EmitState.bind]

theorem eval_forM_bindOutput_eq_error {entries : List (ValueId × TensorRef)} {e : ConversionError}
    (h : (entries.forM fun entry => bindOutput entry.1 entry.2).eval site s = (.error e, s')) :
    ¬ e.cause.IsInternal := by
  induction entries generalizing s with
  | nil => cases h
  | cons entry entries ih =>
    rcases eval_bind_eq_error.mp h with h | ⟨⟨⟩, next, -, h⟩
    · exact eval_bindOutput_eq_error h
    · exact ih h

/-- Results are bound only if there is one tensor for each. -/
theorem eval_bindOutputs_eq_ok {tensors : List TensorRef}
    (h : (bindOutputs tensors).eval site s = (.ok (), s')) :
    tensors.length = site.node.outputs.length ∧
      s' = { s with bound := (site.node.outputs.zip tensors).reverse ++ s.bound } := by
  rw [bindOutputs, eval_bind, eval_node] at h
  dsimp only at h
  split at h
  · cases h
  · next hlen => exact ⟨Decidable.not_not.mp hlen, eval_forM_bindOutput_eq_ok h⟩

theorem eval_bindOutputs_eq_error {tensors : List TensorRef} {e : ConversionError}
    (h : (bindOutputs tensors).eval site s = (.error e, s')) : ¬ e.cause.IsInternal := by
  rw [bindOutputs, eval_bind, eval_node] at h
  dsimp only at h
  split at h
  · cases h
    exact not_false
  · exact eval_forM_bindOutput_eq_error h

end Emit

/-! ## Registries -/

namespace Registry

/-- A registry with some of the standard converters, and no others. -/
def IsPart (r : Registry A) : Prop := ∀ kind, r kind = none ∨ r kind = standard A kind

theorem isPart_standard : (standard A).IsPart := fun _ => .inr rfl

variable {r : Registry A} {g : Graph} {truncateWide : Bool} {s s' : EmitState A} {node : Node}

theorem IsPart.eq_standard (hr : r.IsPart) {kind : OpKind} {converter : Converter A}
    (h : r kind = some converter) : standard A kind = some converter := by
  rcases hr kind with hnone | hstandard
  · rw [h] at hnone
    cases hnone
  · exact hstandard ▸ h

theorem IsPart.positional (hr : r.IsPart) {kind : OpKind} {converter : Converter A}
    (h : r kind = some converter) : converter.convert.Positional :=
  positional_of_standard (hr.eq_standard h)

/-- A supported node has a converter. -/
theorem exists_converter (h : r.support g node = .ok ()) :
    ∃ converter, r node.kind = some converter := by
  unfold support at h
  split at h
  · cases h
  · split at h
    · next converter hc => exact ⟨converter, hc⟩
    · cases h

/-- The predicate of a supported node holds. -/
theorem support_of_converter (h : r.support g node = .ok ()) {converter : Converter A}
    (hconverter : r node.kind = some converter) : converter.support g node = .ok () := by
  unfold support at h
  split at h
  · cases h
  · rwa [hconverter] at h

/-- Converting a supported node runs its converter and binds what it answers. -/
theorem convert_of_support (h : r.support g node = .ok ()) {converter : Converter A}
    (hconverter : r node.kind = some converter) :
    r.convert g truncateWide s node =
      (converter.convert >>= Emit.bindOutputs).eval ⟨g, node, truncateWide⟩ s := by
  show (read >>= fun site => _ : Emit A Unit).eval ⟨g, node, truncateWide⟩ s = _
  rw [Emit.eval_bind, Emit.eval_read]
  dsimp only
  rw [h, hconverter]

/-- A node converts only if it is supported. -/
theorem support_of_convert (h : r.convert g truncateWide s node = (.ok (), s')) :
    r.support g node = .ok () := by
  cases hsupport : r.support g node with
  | ok => rfl
  | error reason =>
    have hrun : r.convert g truncateWide s node =
        (.error ⟨node.id, node.kind, .unsupported reason⟩, s) := by
      show (read >>= fun site => _ : Emit A Unit).eval ⟨g, node, truncateWide⟩ s = _
      rw [Emit.eval_bind, Emit.eval_read]
      dsimp only
      rw [hsupport]
      rfl
    rw [hrun] at h
    cases h

/-- A node that converts has its results bound. -/
theorem extends_of_convert (hr : r.IsPart)
    (h : r.convert g truncateWide s node = (.ok (), s')) : s'.Extends s node.outputs := by
  have hsupport := support_of_convert h
  obtain ⟨converter, hconverter⟩ := exists_converter hsupport
  rw [convert_of_support hsupport hconverter] at h
  obtain ⟨tensors, next, hrun, hbind⟩ := Emit.eval_bind_eq_ok.mp h
  obtain ⟨hlen, rfl⟩ := Emit.eval_bindOutputs_eq_ok hbind
  have hbound := (hr.positional hconverter).bound_eq ⟨g, node, truncateWide⟩ s
  rw [hrun] at hbound
  exact ⟨tensors, hlen, by rw [← hbound]⟩

/-- What every layer keeps of a network when it is added, a node that converts keeps. -/
theorem network_induction {p : A.Network → Prop}
    (hp : ∀ {n kind inputs name n' outs}, A.addLayer n kind inputs name = .ok (n', outs) →
      p n → p n')
    (hr : r.IsPart) (h : r.convert g truncateWide s node = (.ok (), s')) (hs : p s.network) :
    p s'.network := by
  have hsupport := support_of_convert h
  obtain ⟨converter, hconverter⟩ := exists_converter hsupport
  rw [convert_of_support hsupport hconverter] at h
  obtain ⟨tensors, next, hrun, hbind⟩ := Emit.eval_bind_eq_ok.mp h
  obtain ⟨-, rfl⟩ := Emit.eval_bindOutputs_eq_ok hbind
  have hnext : p (converter.convert.eval ⟨g, node, truncateWide⟩ s).2.network :=
    (hr.positional hconverter).network_induction hp hs
  rwa [hrun] at hnext

/-- A supported node whose operands are bound is never blamed for an internal error. -/
theorem not_isInternal_of_convert (hr : r.IsPart) (hsupport : r.support g node = .ok ())
    (hbinds : s.Binds node.inputs) {e : ConversionError}
    (h : r.convert g truncateWide s node = (.error e, s')) : ¬ e.cause.IsInternal := by
  obtain ⟨converter, hconverter⟩ := exists_converter hsupport
  rw [convert_of_support hsupport hconverter] at h
  rcases Emit.eval_bind_eq_error.mp h with h | ⟨tensors, next, -, h⟩
  · exact (hr.positional hconverter).not_isInternal hbinds h
  · exact Emit.eval_bindOutputs_eq_error h

end Registry

end HybridGraph
