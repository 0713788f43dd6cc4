import HybridGraph.Proofs.Conversion.Blame
import HybridGraph.Proofs.Engine.Unnamed
/-!
# Nodes that convert alike

Two nodes that ask for the same operation, with operands that stand for the same tensors, add the
same layers to networks that are equal but for the names of their layers: a positional computation
answers the same in both places (`Emit.Positional.alike`).  So if both nodes convert, their results
stand for the same tensors, in networks that are equal again but for the names
(`Registry.alike_of_convert`).
-/

namespace HybridGraph

variable {α : Type}

/-- The network of a state, without the names of its layers. -/
def EmitState.unnamed (s : EmitState Reference.accelerator) : Network :=
  Network.unnamed s.network

/-- The tensors that the operands of a node stand for. -/
def EmitState.operands {A : Accelerator} (s : EmitState A) (node : Node) :
    List (Option TensorRef) := node.inputs.map s.tensor?

theorem EmitState.operands_of_bound_eq {A : Accelerator} {s s' : EmitState A}
    (h : s'.bound = s.bound) (node : Node) : s'.operands node = s.operands node := by
  have htensor : s'.tensor? = s.tensor? := by
    funext v
    rw [tensor?, tensor?, h]
  rw [operands, operands, htensor]

namespace Emit

variable {a b : EmitSite} {s s' t t' : EmitState Reference.accelerator}

theorem input_alike (hoperands : s.operands a.node = t.operands b.node) {operand : Nat}
    {x y : TensorRef} (hs : (input operand).eval a s = (.ok x, s'))
    (ht : (input operand).eval b t = (.ok y, t')) : x = y ∧ s' = s ∧ t' = t := by
  obtain ⟨⟨v, hv, hx⟩, rfl⟩ := eval_input_eq_ok.mp hs
  obtain ⟨⟨w, hw, hy⟩, rfl⟩ := eval_input_eq_ok.mp ht
  have hsame := congrArg (·[operand]?) hoperands
  simp only [EmitState.operands, List.getElem?_map, hv, hw, Option.map_some, hx, hy] at hsame
  exact ⟨Option.some.inj (Option.some.inj hsame), rfl, rfl⟩

theorem describe_alike (hnet : s.unnamed = t.unnamed) {tensor : TensorRef} {x y : TensorSig}
    (hs : (describe tensor).eval a s = (.ok x, s'))
    (ht : (describe tensor).eval b t = (.ok y, t')) : x = y ∧ s' = s ∧ t' = t := by
  obtain ⟨hx, rfl⟩ := eval_describe_eq_ok.mp hs
  obtain ⟨hy, rfl⟩ := eval_describe_eq_ok.mp ht
  have hx : Network.describe? s.network tensor = some x := hx
  rw [Network.describe?_eq hnet] at hx
  exact ⟨Option.some.inj (hx.symm.trans hy), rfl, rfl⟩

theorem layer_alike (hnet : s.unnamed = t.unnamed) {kind : LayerKind} {inputs : List TensorRef}
    {x y : TensorRef} (hs : (layer kind inputs).eval a s = (.ok x, s'))
    (ht : (layer kind inputs).eval b t = (.ok y, t')) : x = y ∧ s'.unnamed = t'.unnamed := by
  obtain ⟨network, hx, rfl⟩ := eval_layer_eq_ok.mp hs
  obtain ⟨network', hy, rfl⟩ := eval_layer_eq_ok.mp ht
  obtain ⟨hsame, hnext⟩ := Network.addLayer_alike hnet hx hy
  exact ⟨List.singleton_inj.mp hsame, hnext⟩

/-- Positional computations answer alike in alike places. -/
theorem Positional.alike {m : Emit Reference.accelerator α} (h : m.Positional)
    (hcall : a.node.SameCall b.node) (hwide : a.truncateWide = b.truncateWide)
    (hnet : s.unnamed = t.unnamed) (hoperands : s.operands a.node = t.operands b.node) {x y : α}
    (hs : m.eval a s = (.ok x, s')) (ht : m.eval b t = (.ok y, t')) :
    x = y ∧ s'.unnamed = t'.unnamed := by
  induction h generalizing s t s' t' with
  | done z =>
    obtain ⟨hx, rfl⟩ := Prod.mk.inj hs
    obtain ⟨hy, rfl⟩ := Prod.mk.inj ht
    exact ⟨(Except.ok.inj hx).symm.trans (Except.ok.inj hy), hnet⟩
  | fail fault => cases hs
  | input operand =>
    obtain ⟨rfl, rfl, rfl⟩ := input_alike hoperands hs ht
    exact ⟨rfl, hnet⟩
  | describe tensor =>
    obtain ⟨rfl, rfl, rfl⟩ := describe_alike hnet hs ht
    exact ⟨rfl, hnet⟩
  | layer kind inputs => exact layer_alike hnet hs ht
  | @narrowing _ f hf hsame ih =>
    have hs : (f a).eval a s = (.ok x, s') := hs
    have ht : (f b).eval b t = (.ok y, t') := ht
    rw [← hsame a b hwide] at ht
    exact ih a hnet hoperands hs ht
  | @node _ f hf hsame ih =>
    have hs : (f a.node).eval a s = (.ok x, s') := hs
    have ht : (f b.node).eval b t = (.ok y, t') := ht
    rw [← hsame a.node b.node hcall] at ht
    exact ih a.node hnet hoperands hs ht
  | @bind _ _ m f hm hf ihm ihf =>
    obtain ⟨u, s₁, hfirst, hrest⟩ := eval_bind_eq_ok.mp hs
    obtain ⟨v, t₁, hfirst', hrest'⟩ := eval_bind_eq_ok.mp ht
    obtain ⟨rfl, hnext⟩ := ihm hnet hoperands hfirst hfirst'
    have hbound := hm.bound_eq a s
    have hbound' := hm.bound_eq b t
    rw [hfirst] at hbound
    rw [hfirst'] at hbound'
    refine ihf u hnext ?_ hrest hrest'
    rw [EmitState.operands_of_bound_eq hbound, EmitState.operands_of_bound_eq hbound', hoperands]

end Emit

namespace Registry

variable {r r' : Registry Reference.accelerator} {g g' : Graph} {truncateWide : Bool}
  {s s' t t' : EmitState Reference.accelerator} {a b : Node}

/-- Parts of the standard registry have the same converter for a kind that both know. -/
theorem IsPart.converter_eq (hr : r.IsPart) (hr' : r'.IsPart) {kind : OpKind}
    {c c' : Converter Reference.accelerator} (h : r kind = some c) (h' : r' kind = some c') :
    c = c' := by
  rcases hr kind with hnone | hstandard
  · rw [h] at hnone
    cases hnone
  · rcases hr' kind with hnone | hstandard'
    · rw [h'] at hnone
      cases hnone
    · rw [h] at hstandard
      rw [h', ← hstandard] at hstandard'
      exact (Option.some.inj hstandard').symm

/-- Results of nodes that convert alike stand for the same tensors. -/
theorem alike_of_convert (hr : r.IsPart) (hr' : r'.IsPart) (hcall : a.SameCall b)
    (hnet : s.unnamed = t.unnamed) (hoperands : s.operands a = t.operands b)
    (hs : r.convert g truncateWide s a = (.ok (), s'))
    (ht : r'.convert g' truncateWide t b = (.ok (), t')) :
    s'.unnamed = t'.unnamed ∧ ∃ tensors,
      (tensors.length = a.outputs.length ∧
        s'.bound = (a.outputs.zip tensors).reverse ++ s.bound) ∧
      (tensors.length = b.outputs.length ∧
        t'.bound = (b.outputs.zip tensors).reverse ++ t.bound) := by
  have hsupport := support_of_convert hs
  have hsupport' := support_of_convert ht
  obtain ⟨c, hc⟩ := exists_converter hsupport
  obtain ⟨c', hc'⟩ := exists_converter hsupport'
  rw [convert_of_support hsupport hc] at hs
  rw [convert_of_support hsupport' hc'] at ht
  obtain rfl := hr.converter_eq hr' hc (hcall.kind ▸ hc')
  obtain ⟨tensors, s₁, hrun, hbind⟩ := Emit.eval_bind_eq_ok.mp hs
  obtain ⟨tensors', t₁, hrun', hbind'⟩ := Emit.eval_bind_eq_ok.mp ht
  obtain ⟨hlen, rfl⟩ := Emit.eval_bindOutputs_eq_ok hbind
  obtain ⟨hlen', rfl⟩ := Emit.eval_bindOutputs_eq_ok hbind'
  have hpositional := hr.positional hc
  have hbound := hpositional.bound_eq ⟨g, a, truncateWide⟩ s
  have hbound' := hpositional.bound_eq ⟨g', b, truncateWide⟩ t
  rw [hrun] at hbound
  rw [hrun'] at hbound'
  obtain ⟨rfl, hnext⟩ := hpositional.alike (a := ⟨g, a, truncateWide⟩) (b := ⟨g', b, truncateWide⟩)
    hcall rfl hnet hoperands hrun hrun'
  exact ⟨hnext, tensors, ⟨hlen, by rw [← hbound]⟩, ⟨hlen', by rw [← hbound']⟩⟩

end Registry

end HybridGraph
