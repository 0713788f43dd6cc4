import HybridGraph.Proofs.Conversion.Running
import HybridGraph.Proofs.Engine.Inferred
import HybridGraph.Proofs.Engine.Unnamed
/-!
# Conversions that succeed

`Emit.Answers m site s d` says that a computation on a network of the reference accelerator succeeds
with a tensor of the descriptor `d` and leaves what there was as it is.  It follows the shape of a
converter: `Answers.after` passes a step that only reads, `Answers.next` a step that answers a
tensor itself, `Answers.guard` a check that some nodes need, and `Answers.layer` adds a layer whose
descriptor can be inferred.  One lemma for each converter says which descriptors of the operands let
it answer.
-/

namespace HybridGraph

/-! ## Growing -/

/-- Every tensor of a network is described alike in another one. -/
def Network.Keeps (n n' : Network) : Prop :=
  ∀ x d, n.describe? x = some d → n'.describe? x = some d

/-- A layer that can be inferred can be added. -/
theorem Network.exists_addLayer {n : Network} {kind : LayerKind} {inputs : List TensorRef}
    {operands : List TensorSig} {d : TensorSig}
    (hoperands : List.Forall₂ (fun x e => n.describe? x = some e) inputs operands)
    (h : kind.infer operands = .ok d) (name : String) :
    ∃ n' x, n.addLayer kind inputs name = .ok (n', [x]) ∧ n.Keeps n' ∧
      n'.outputs = n.outputs ∧ n'.describe? x = some d := by
  have hread : inputs.mapM n.describe = .ok operands := by
    refine Outcome.mapM_eq_ok.mpr (hoperands.imp fun x e he => ?_)
    rw [describe, he]
  refine ⟨_, _, addLayer_eq_ok.mpr ⟨operands, d, hread, h, rfl, rfl⟩, fun x e he => ?_, rfl, ?_⟩
  · obtain ⟨hlt, -⟩ := Array.getElem?_eq_some_iff.mp he
    exact (Array.getElem?_push_lt hlt).trans (Array.getElem?_eq_getElem hlt ▸ he)
  · exact Array.getElem?_push_size

namespace EmitState

variable {s s' s'' : EmitState Reference.accelerator} {node : Node} {operand : Nat} {x : TensorRef}
  {d : TensorSig}

/-- The names of the outputs of a network. -/
def outputs (s : EmitState Reference.accelerator) : List NetworkOutput := Network.outputs s.network

/-- A state has grown from another one: nothing is bound anew, and all descriptors are kept. -/
structure Grows (s s' : EmitState Reference.accelerator) : Prop where
  bound : s'.bound = s.bound
  network : Network.Keeps s.network s'.network
  outputs : s'.outputs = s.outputs

theorem Grows.refl (s : EmitState Reference.accelerator) : s.Grows s := ⟨rfl, fun _ _ h => h, rfl⟩

theorem Grows.trans (h : s.Grows s') (h' : s'.Grows s'') : s.Grows s'' where
  bound := h'.bound.trans h.bound
  network x d hx := h'.network x d (h.network x d hx)
  outputs := h'.outputs.trans h.outputs

/-- An operand of a node stands for a tensor with a descriptor. -/
structure Supplies (s : EmitState Reference.accelerator) (node : Node) (operand : Nat)
    (x : TensorRef) (d : TensorSig) : Prop where
  bound : node.inputs[operand]?.bind s.tensor? = some x
  described : Network.describe? s.network x = some d

theorem Supplies.grows (h : s.Supplies node operand x d) (hs : s.Grows s') :
    s'.Supplies node operand x d where
  bound := by
    unfold tensor?
    rw [hs.bound]
    exact h.bound
  described := hs.network x d h.described

end EmitState

/-! ## Answers -/

namespace Emit

variable {α : Type} {site : EmitSite} {s s' : EmitState Reference.accelerator}
  {m : Emit Reference.accelerator TensorRef} {x : TensorRef} {d e : TensorSig}

/-- A computation succeeds with a tensor of a descriptor. -/
def Answers (m : Emit Reference.accelerator TensorRef) (site : EmitSite)
    (s : EmitState Reference.accelerator) (d : TensorSig) : Prop :=
  ∃ x s', m.eval site s = (.ok x, s') ∧ s.Grows s' ∧ Network.describe? s'.network x = some d

namespace Answers

theorem done (h : Network.describe? s.network x = some d) :
    (pure x : Emit Reference.accelerator TensorRef).Answers site s d :=
  ⟨x, s, rfl, .refl s, h⟩

theorem layer {kind : LayerKind} {inputs : List TensorRef} {operands : List TensorSig}
    (hoperands : List.Forall₂ (fun x e => Network.describe? s.network x = some e) inputs operands)
    (h : kind.infer operands = .ok d) : (Emit.layer kind inputs).Answers site s d := by
  obtain ⟨network, x, hadd, hkeeps, houtputs, hx⟩ :=
    Network.exists_addLayer hoperands h s!"{site.node.id.text}:{kind.label}"
  have hadd' : Reference.accelerator.addLayer s.network kind inputs
      s!"{site.node.id.text}:{kind.label}" = .ok (network, [x]) := hadd
  refine ⟨x, s.grow network site.node.id, ?_, ⟨rfl, hkeeps, houtputs⟩, hx⟩
  rw [eval_layer, hadd']

/-- A tensor is answered, and then another one. -/
theorem next {f : TensorRef → Emit Reference.accelerator TensorRef} (hm : m.Answers site s e)
    (hf : ∀ x s', s.Grows s' → Network.describe? s'.network x = some e →
      (f x).Answers site s' d) : (m >>= f).Answers site s d := by
  obtain ⟨x, s₁, hrun, hgrows, hx⟩ := hm
  obtain ⟨y, s₂, hrest, hgrows', hy⟩ := hf x s₁ hgrows hx
  exact ⟨y, s₂, eval_bind_eq_ok.mpr ⟨x, s₁, hrun, hrest⟩, hgrows.trans hgrows', hy⟩

/-- A step that only reads, and then an answer. -/
theorem after {r : Emit Reference.accelerator α} {a : α}
    {f : α → Emit Reference.accelerator TensorRef} (hr : r.eval site s = (.ok a, s))
    (hf : (f a).Answers site s d) : (r >>= f).Answers site s d := by
  obtain ⟨x, s₁, hrun, hgrows, hx⟩ := hf
  exact ⟨x, s₁, eval_bind_eq_ok.mpr ⟨a, s, hr, hrun⟩, hgrows, hx⟩

/-- A check that only some nodes need, and then an answer. -/
theorem guard {c : Prop} [Decidable c] {check : Emit Reference.accelerator PUnit}
    {rest : PUnit → Emit Reference.accelerator TensorRef}
    (hcheck : c → check.eval site s = (.ok ⟨⟩, s)) (hrest : (rest ⟨⟩).Answers site s d) :
    (if c then check >>= rest else rest ⟨⟩).Answers site s d := by
  split
  · next hc => exact after (hcheck hc) hrest
  · exact hrest

end Answers

/-! ## Reading -/

theorem eval_input_of {operand : Nat} (h : s.Supplies site.node operand x d) :
    (input operand).eval site s = (.ok x, s) := by
  obtain ⟨v, hv, hx⟩ := Option.bind_eq_some_iff.mp h.bound
  rw [eval_input, hv]
  dsimp only
  rw [hx]

theorem eval_describe_of (h : Network.describe? s.network x = some d) :
    (describe x).eval site s = (.ok d, s) := by
  have h' : Reference.accelerator.describe? s.network x = some d := h
  rw [eval_describe, h']

theorem eval_needFloat_of (h : d.dtype.isFloat = true) :
    (needFloat d : Emit Reference.accelerator Unit).eval site s = (.ok (), s) := by
  rw [needFloat, if_pos h]
  rfl

theorem eval_orFail_of {value? : Option α} {a : α} {fault : ConversionFault}
    (h : value? = some a) :
    (orFail value? fault : Emit Reference.accelerator α).eval site s = (.ok a, s) := by
  rw [h]
  rfl

theorem eval_axis_of {n : Int} {rank axis : Nat} (h : Kernel.axisIndex n rank = .ok axis) :
    (Emit.axis n rank : Emit Reference.accelerator Nat).eval site s = (.ok axis, s) :=
  eval_orFail_of (by rw [h]; rfl)

theorem eval_float_of {name : String} {value : Float} (h : site.node.float? name = some value) :
    (float name : Emit Reference.accelerator Float).eval site s = (.ok value, s) :=
  eval_bind_eq_ok.mpr ⟨site.node, s, rfl, eval_orFail_of h⟩

theorem eval_ints_of {name : String} {value : List Int} (h : site.node.ints? name = some value) :
    (ints name : Emit Reference.accelerator (List Int)).eval site s = (.ok value, s) :=
  eval_bind_eq_ok.mpr ⟨site.node, s, rfl, eval_orFail_of h⟩

theorem eval_mapM_of {β : Type} {f : α → Emit Reference.accelerator β} {as : List α} {bs : List β}
    (h : List.Forall₂ (fun a b => (f a).eval site s = (.ok b, s)) as bs) :
    (as.mapM f).eval site s = (.ok bs, s) := by
  induction h with
  | nil => rfl
  | cons hfirst _ ih =>
    rw [List.mapM_cons]
    exact eval_bind_eq_ok.mpr ⟨_, s, hfirst, eval_bind_eq_ok.mpr ⟨_, s, ih, rfl⟩⟩

end Emit

/-! ## Converters -/

namespace Inference

theorem broadcast_self (dims : List Dimension) : broadcast dims dims = .ok dims :=
  broadcast_eq_ok.mpr ⟨by simp, fun k => broadcastExtent_self _⟩

end Inference

namespace Converter

open Emit LayerKind Inference

variable {site : EmitSite} {s : EmitState Reference.accelerator} {x y : TensorRef}
  {d e like : TensorSig} {dims : List Dimension}

/-- A number has as many unit extents as the tensor that it is meant for. -/
theorem answers_scalar (value : Float) (like : TensorSig) :
    (scalar value like).Answers site s ⟨like.dtype, List.replicate like.rank (.fixed 1)⟩ := by
  refine .layer .nil ?_
  show Except.ok (TensorSig.of like.dtype (List.replicate like.rank 1)) = _
  rw [TensorSig.of, List.map_replicate]

theorem answers_elementWise {op : BinaryOp} (hx : Network.describe? s.network x = some d)
    (hy : Network.describe? s.network y = some e) (hdtype : e.dtype = d.dtype)
    (hpow : op = .pow → d.dtype.isFloat = true) (h : broadcast d.dims e.dims = .ok dims) :
    (layer (.elementWise op) [x, y]).Answers site s ⟨d.dtype, dims⟩ :=
  .layer (.cons hx (.cons hy .nil)) (infer_elementWise hdtype hpow h)

theorem answers_scaled (factor : Float) (hx : Network.describe? s.network x = some d)
    (hdtype : like.dtype = d.dtype)
    (h : broadcast d.dims (List.replicate like.rank (.fixed 1)) = .ok dims) :
    (scaled x factor like).Answers site s ⟨d.dtype, dims⟩ :=
  .next (answers_scalar factor like) fun _ _ hs hfactor =>
    answers_elementWise (hs.network x d hx) hfactor hdtype nofun h

theorem answers_activation {function : Activation} (h0 : s.Supplies site.node 0 x d)
    (hfloat : d.dtype.isFloat = true) : (activation function).Answers site s d :=
  .after (eval_input_of h0) <| .after (eval_describe_of h0.described) <|
    .after (eval_needFloat_of hfloat) <|
      .layer (.cons h0.described .nil) (infer_activation hfloat)

theorem answers_tanhTerm (hx : Network.describe? s.network x = some d)
    (hfloat : d.dtype.isFloat = true) : (tanhTerm x d).Answers site s d := by
  refine .next (answers_scalar 3.0 d) fun three s₁ hs₁ hthree => ?_
  have hx₁ := hs₁.network x d hx
  refine .next (answers_elementWise hx₁ hthree rfl (fun _ => hfloat) (broadcast_units d.dims))
    fun cube s₂ hs₂ hcube => ?_
  refine .next (answers_scaled _ hcube rfl (broadcast_units d.dims))
    fun weighted s₃ hs₃ hweighted => ?_
  have hx₃ := hs₃.network x d (hs₂.network x d hx₁)
  refine .next (answers_elementWise hx₃ hweighted rfl nofun (broadcast_self d.dims))
    fun sum s₄ _ hsum => ?_
  refine .next (answers_scaled _ hsum rfl (broadcast_units d.dims)) fun argument _ _ hargument => ?_
  exact .layer (.cons hargument .nil) (infer_activation hfloat)

theorem answers_erfTerm (hx : Network.describe? s.network x = some d)
    (hfloat : d.dtype.isFloat = true) : (erfTerm x d).Answers site s d :=
  .next (answers_scaled _ hx rfl (broadcast_units d.dims)) fun _ _ _ hy =>
    .layer (.cons hy .nil) (infer_unary (.inr (.inr hfloat)))

theorem answers_gelu (h0 : s.Supplies site.node 0 x d) (hfloat : d.dtype.isFloat = true) :
    gelu.Answers site s d := by
  have hrest : ∀ inner s', s.Grows s' → Network.describe? s'.network inner = some d → (do
      let one ← scalar 1.0 d
      let shifted ← layer (.elementWise .sum) [inner, one]
      let half ← scaled x 0.5 d
      layer (.elementWise .prod) [half, shifted] : Emit Reference.accelerator TensorRef).Answers
        site s' d := by
    intro inner s₁ hs₁ hinner
    refine .next (answers_scalar 1.0 d) fun one s₂ hs₂ hone => ?_
    refine .next (answers_elementWise (hs₂.network inner d hinner) hone rfl nofun
      (broadcast_units d.dims)) fun shifted s₃ hs₃ hshifted => ?_
    have hx := hs₃.network x d (hs₂.network x d (hs₁.network x d h0.described))
    refine .next (answers_scaled _ hx rfl (broadcast_units d.dims)) fun half s₄ hs₄ hhalf => ?_
    exact answers_elementWise hhalf (hs₄.network shifted d hshifted) rfl nofun
      (broadcast_self d.dims)
  refine .after (eval_input_of h0) <| .after (eval_describe_of h0.described) <|
    .after (eval_needFloat_of hfloat) <| .after eval_node ?_
  dsimp only
  split
  · exact .next (answers_tanhTerm h0.described hfloat) hrest
  · exact .next (answers_erfTerm h0.described hfloat) hrest

theorem answers_silu (h0 : s.Supplies site.node 0 x d) (hfloat : d.dtype.isFloat = true) :
    silu.Answers site s d := by
  refine .after (eval_input_of h0) <| .after (eval_describe_of h0.described) <|
    .after (eval_needFloat_of hfloat) ?_
  refine .next (.layer (.cons h0.described .nil) (infer_activation hfloat))
    fun gate s₁ hs₁ hgate => ?_
  exact answers_elementWise (hs₁.network x d h0.described) hgate rfl nofun (broadcast_self d.dims)

theorem answers_prelu (h0 : s.Supplies site.node 0 x d) (h1 : s.Supplies site.node 1 y e)
    (hfloat : d.dtype.isFloat = true) (hrank : e.rank ≤ 1) : prelu.Answers site s d := by
  refine .after (eval_input_of h0) <| .after (eval_input_of h1) <|
    .after (eval_describe_of h0.described) <| .after (eval_needFloat_of hfloat) <|
      .after (eval_describe_of h1.described) ?_
  refine .guard (fun h => absurd h (Nat.not_lt.mpr hrank)) ?_
  exact .layer (.cons h0.described (.cons h1.described .nil)) (infer_parametricRelu hfloat hrank)

/-- A number on the right has one type with the left operand. -/
theorem answers_rightOperand_number {value : Float} (hone : site.node.inputs.length = 1)
    (hother : site.node.float? "other" = some value) (like : TensorSig) :
    (rightOperand like).Answers site s ⟨like.dtype, List.replicate like.rank (.fixed 1)⟩ := by
  refine .after eval_node ?_
  rw [if_neg (by omega)]
  exact .after (eval_orFail_of hother) (answers_scalar value like)

theorem answers_rightOperand_tensor (htwo : site.node.inputs.length = 2)
    (h1 : s.Supplies site.node 1 y e) : (rightOperand like).Answers site s e := by
  refine .after eval_node ?_
  rw [if_pos htwo]
  exact ⟨y, s, eval_input_of h1, .refl s, h1.described⟩

theorem answers_binary {op : BinaryOp} (hop : binaryOp? site.node.kind = some op)
    (h0 : s.Supplies site.node 0 x d) (hright : (rightOperand d).Answers site s e)
    (hdtype : e.dtype = d.dtype) (hpow : op = .pow → d.dtype.isFloat = true)
    (h : broadcast d.dims e.dims = .ok dims) : binary.Answers site s ⟨d.dtype, dims⟩ := by
  refine .after eval_node <| .after (eval_orFail_of hop) <| .after (eval_input_of h0) <|
    .after (eval_describe_of h0.described) ?_
  refine .next hright fun right s₁ hs₁ hright => .after (eval_describe_of hright) ?_
  refine .guard (fun hne => absurd hdtype hne) ?_
  have hx := hs₁.network x d h0.described
  dsimp only
  split
  · obtain ⟨wider, hwider, hlast⟩ := broadcast_units_right h
    refine .next (answers_scaled _ hright hdtype.symm hwider) fun scaled s₂ hs₂ hscaled => ?_
    exact answers_elementWise (hs₂.network x d hx) hscaled hdtype hpow hlast
  · exact .after (eval_pure right) (answers_elementWise hx hright hdtype hpow h)

theorem answers_unary {op : UnaryOp} (hop : unaryOp? site.node.kind = some op)
    (h0 : s.Supplies site.node 0 x d) (hfloat : op = .neg ∨ op = .abs ∨ d.dtype.isFloat = true) :
    unary.Answers site s d :=
  .after eval_node <| .after (eval_orFail_of hop) <| .after (eval_input_of h0) <|
    .layer (.cons h0.described .nil) (infer_unary hfloat)

theorem answers_limit {op : BinaryOp} (hop : op ≠ .pow) (bound : Option Float)
    (hx : Network.describe? s.network x = some d) : (limit op bound d x).Answers site s d := by
  cases bound with
  | none => exact .done hx
  | some value =>
    exact .next (answers_scalar value d) fun _ _ hs hvalue =>
      answers_elementWise (hs.network x d hx) hvalue rfl (fun h => absurd h hop)
        (broadcast_units d.dims)

theorem answers_clamp (h0 : s.Supplies site.node 0 x d) : clamp.Answers site s d := by
  have hlimits : ∀ low high, (do
      limit .min high d (← limit .max low d x) : Emit Reference.accelerator TensorRef).Answers
        site s d := fun low high =>
    .next (answers_limit (by decide) low h0.described) fun _ _ _ hx =>
      answers_limit (by decide) high hx
  refine .after (eval_input_of h0) <| .after (eval_describe_of h0.described) <|
    .after eval_node ?_
  split
  · split
    · next hfloat => exact .layer (.cons h0.described .nil) (infer_activation hfloat)
    · exact hlimits _ _
  · exact hlimits _ _

theorem eval_needMatrix_of (hx : Network.describe? s.network x = some d)
    (hfloat : d.dtype.isFloat = true) (hrank : 2 ≤ d.rank) :
    (needMatrix x).eval site s = (.ok (), s) := by
  refine eval_bind_eq_ok.mpr ⟨d, s, eval_describe_of hx, eval_bind_eq_ok.mpr
    ⟨(), s, eval_needFloat_of hfloat, ?_⟩⟩
  rw [if_neg (Nat.not_lt.mpr hrank)]
  rfl

theorem answers_matmul (h0 : s.Supplies site.node 0 x d) (h1 : s.Supplies site.node 1 y e)
    (hfloat : d.dtype.isFloat = true) (hdtype : e.dtype = d.dtype) (hd : 2 ≤ d.rank)
    (he : 2 ≤ e.rank) (h : productExtents d.dims e.dims = .ok dims) :
    matmul.Answers site s ⟨d.dtype, dims⟩ :=
  .after (eval_input_of h0) <| .after (eval_input_of h1) <|
    .after (eval_needMatrix_of h0.described hfloat hd) <|
      .after (eval_needMatrix_of h1.described (hdtype ▸ hfloat) he) <|
        .layer (.cons h0.described (.cons h1.described .nil))
          (infer_matrixMultiply hfloat hdtype h)

theorem answers_shuffle {perm : Option (List Nat)} {target : Option (List Int)}
    (hx : Network.describe? s.network x = some d)
    (h : shuffleExtents d.dims perm target = .ok dims) :
    (shuffle x perm target).Answers site s ⟨d.dtype, dims⟩ :=
  .layer (.cons hx .nil) (infer_shuffle h)

theorem answers_softmax {n : Int} {axis : Nat} (h0 : s.Supplies site.node 0 x d)
    (hfloat : d.dtype.isFloat = true) (hdim : site.node.int? "dim" = some n)
    (haxis : Kernel.axisIndex n d.rank = .ok axis) (hlt : axis < max d.rank 1) :
    softmax.Answers site s d :=
  .after (eval_input_of h0) <| .after (eval_describe_of h0.described) <|
    .after (eval_needFloat_of hfloat) <| .after eval_node <| .after (eval_orFail_of hdim) <|
      .after (eval_axis_of haxis) <| .layer (.cons h0.described .nil) (infer_softmax hfloat hlt)

theorem answers_reshape {target : List Int} (h0 : s.Supplies site.node 0 x d)
    (hshape : site.node.ints? "shape" = some target)
    (h : Inference.reshape d.dims target = .ok dims) :
    Converter.reshape.Answers site s ⟨d.dtype, dims⟩ :=
  .after (eval_input_of h0) <| .after (eval_ints_of hshape) <| answers_shuffle h0.described h

theorem answers_cast (h0 : s.Supplies site.node 0 x d) :
    cast.Answers site s ⟨(site.node.dtype? "dtype").getD d.dtype, d.dims⟩ := by
  refine .after (eval_input_of h0) <| .after eval_node ?_
  split
  · next dtype hdtype =>
    rw [hdtype]
    exact .layer (.cons h0.described .nil) rfl
  · next hdtype =>
    rw [hdtype]
    exact .after (eval_describe_of h0.described) (.layer (.cons h0.described .nil) rfl)

theorem answers_copy (h0 : s.Supplies site.node 0 x d) : copy.Answers site s d :=
  .after (eval_input_of h0) <| .after (eval_describe_of h0.described) <|
    .layer (.cons h0.described .nil) rfl

theorem answers_linear {permuted out : List Dimension} (h0 : s.Supplies site.node 0 x d)
    (h1 : s.Supplies site.node 1 y e) (hfloat : d.dtype.isFloat = true) (hrank : e.rank = 2)
    (hdtype : e.dtype = d.dtype)
    (hpermuted : shuffleExtents e.dims (some [1, 0]) none = .ok permuted)
    (h : productExtents d.dims permuted = .ok dims)
    (hbias : if site.node.inputs.length = 3 then ∃ z b, s.Supplies site.node 2 z b ∧
      b.dtype = d.dtype ∧ broadcast dims b.dims = .ok out else out = dims) :
    linear.Answers site s ⟨d.dtype, out⟩ := by
  refine .after (eval_input_of h0) <| .after (eval_input_of h1) <|
    .after (eval_describe_of h0.described) <| .after (eval_needFloat_of hfloat) <|
      .after (eval_describe_of h1.described) <| .guard (fun hne => absurd hrank hne) ?_
  refine .next (answers_shuffle h1.described hpermuted) fun turned s₁ hs₁ hturned => ?_
  have hx := hs₁.network x d h0.described
  refine .next (.layer (.cons hx (.cons hturned .nil)) (infer_matrixMultiply hfloat hdtype h))
    fun product s₂ hs₂ hproduct => .after eval_node ?_
  split
  · next hthree =>
    rw [if_pos hthree] at hbias
    obtain ⟨z, b, h2, hb, hout⟩ := hbias
    have h2' := h2.grows (hs₁.trans hs₂)
    exact .after (eval_input_of h2')
      (answers_elementWise (d := ⟨d.dtype, dims⟩) hproduct h2'.described hb nofun hout)
  · next hthree =>
    rw [if_neg hthree] at hbias
    exact .done (hbias ▸ hproduct)

theorem eval_axes_of {ns : List Int} {rank : Nat} {axes : List Nat}
    (h : ns.mapM (Kernel.axisIndex · rank) = .ok axes) :
    (ns.mapM (axis · rank) : Emit Reference.accelerator (List Nat)).eval site s = (.ok axes, s) :=
  eval_mapM_of ((Outcome.mapM_eq_ok.mp h).imp fun _ _ => eval_axis_of)

/-- A reduction runs over the axes that are named, or over all. -/
theorem answers_reduce {axes? : Option (List Int)} {named : List Nat}
    (h0 : s.Supplies site.node 0 x d)
    (hfloat : site.node.kind = .mean → d.dtype.isFloat = true)
    (haxes : site.node.axes? = some axes?)
    (hnamed : axes?.elim (.ok (List.range d.rank)) (·.mapM (Kernel.axisIndex · d.rank)) =
      .ok named) :
    reduce.Answers site s ⟨d.dtype, reduceExtents d.dims
      ((List.range (max d.rank 1)).filter named.contains)
      ((site.node.bool? "keepdim").getD false)⟩ := by
  have hmean : (if site.node.kind = .mean then ReduceOp.mean else .sum) = .mean →
      d.dtype.isFloat = true := by
    intro hop
    split at hop
    · next hkind => exact hfloat hkind
    · cases hop
  have hlast : ∀ op, (op = ReduceOp.mean → d.dtype.isFloat = true) → (layer
      (.reduce op ((List.range (max d.rank 1)).filter named.contains)
        ((site.node.bool? "keepdim").getD false)) [x]).Answers site s ⟨d.dtype, reduceExtents d.dims
      ((List.range (max d.rank 1)).filter named.contains)
      ((site.node.bool? "keepdim").getD false)⟩ := fun op hop =>
    .layer (.cons h0.described .nil) (infer_reduce hop fun axis haxis =>
      List.mem_range.mp (List.mem_filter.mp haxis).1)
  refine .after eval_node <| .after (eval_input_of h0) <| .after (eval_describe_of h0.described) <|
    .guard (fun hop => eval_needFloat_of (hmean hop)) <| .after (eval_orFail_of haxes) ?_
  cases axes? with
  | none =>
    obtain rfl := Except.ok.inj hnamed
    exact .after (eval_pure _) (hlast _ hmean)
  | some ns => exact .after (eval_axes_of hnamed) (hlast _ hmean)

theorem firstRepeat?_eq_none {seen ns : List Nat} (h : ns.Nodup) (hseen : ∀ n ∈ ns, n ∉ seen) :
    firstRepeat? seen ns = none := by
  induction ns generalizing seen with
  | nil => rfl
  | cons n ns ih =>
    obtain ⟨hn, hns⟩ := List.nodup_cons.mp h
    have hfresh : n ∉ seen := hseen n List.mem_cons_self
    rw [firstRepeat?, if_neg (by simpa using hfresh)]
    refine ih hns fun m hm hmem => ?_
    rcases List.mem_cons.mp hmem with rfl | hmem
    · exact hn hm
    · exact hseen m (List.mem_cons_of_mem n hm) hmem

theorem answers_permute {axes : List Int} {perm : List Nat} (h0 : s.Supplies site.node 0 x d)
    (haxes : site.node.ints? "dims" = some axes)
    (hperm : axes.mapM (Kernel.axisIndex · d.rank) = .ok perm)
    (hlen : perm.length = d.rank) (hnodup : perm.Nodup)
    (h : shuffleExtents d.dims (some perm) none = .ok dims) :
    permute.Answers site s ⟨d.dtype, dims⟩ := by
  have hcount : axes.length = d.rank := (Outcome.mapM_eq_ok.mp hperm).length_eq.trans hlen
  refine .after (eval_input_of h0) <| .after (eval_describe_of h0.described) <|
    .after (eval_ints_of haxes) <| .guard (fun hne => absurd hcount hne) <|
      .after (eval_axes_of hperm) ?_
  rw [firstRepeat?_eq_none hnodup fun _ _ => List.not_mem_nil]
  exact answers_shuffle h0.described h

theorem eval_needAxis_of {axis rank : Nat} (h : axis < rank) :
    (needAxis axis rank : Emit Reference.accelerator Unit).eval site s = (.ok (), s) := by
  rw [needAxis, if_pos h]
  rfl

theorem answers_transpose {n m : Int} {a b : Nat} (h0 : s.Supplies site.node 0 x d)
    (hfirst : site.node.int? "dim0" = some n) (hsecond : site.node.int? "dim1" = some m)
    (ha : Kernel.axisIndex n d.rank = .ok a) (hb : Kernel.axisIndex m d.rank = .ok b)
    (halt : a < d.rank) (hblt : b < d.rank)
    (h : shuffleExtents d.dims (some (Kernel.exchange d.rank a b)) none = .ok dims) :
    transpose.Answers site s ⟨d.dtype, dims⟩ := by
  refine .after (eval_input_of h0) <| .after (eval_describe_of h0.described) <|
    .after eval_node ?_
  rw [hfirst, hsecond]
  exact .after (eval_axis_of ha) <| .after (eval_axis_of hb) <| .after (eval_needAxis_of halt) <|
    .after (eval_needAxis_of hblt) <| answers_shuffle h0.described h

/-- A tensor without axes gets one. -/
theorem answers_flatten_scalar (h0 : s.Supplies site.node 0 x d) (hrank : d.rank = 0) :
    flatten.Answers site s ⟨d.dtype, [.fixed 1]⟩ := by
  refine .after (eval_input_of h0) <| .after (eval_describe_of h0.described) ?_
  rw [if_pos hrank]
  exact answers_shuffle h0.described rfl

/-- Known extents are read as they are. -/
theorem trailing_of_fixed (extents : List Nat) (axis : Nat) :
    List.Forall₂
      (fun entry n => (trailingExtent entry : Emit Reference.accelerator Int).eval site s =
        (.ok n, s))
      ((extents.zipIdx axis).map (Prod.map .fixed id)) (extents.map Int.ofNat) := by
  induction extents generalizing axis with
  | nil => exact .nil
  | cons n extents ih => exact .cons rfl (ih (axis + 1))

theorem answers_flatten {extents : List Nat} {first last : Nat} (h0 : s.Supplies site.node 0 x d)
    (hdims : d.dims = extents.map .fixed) (hrank : d.rank ≠ 0)
    (hfirst : Kernel.axisIndex ((site.node.int? "start_dim").getD 0) d.rank = .ok first)
    (hlast : Kernel.axisIndex ((site.node.int? "end_dim").getD (-1)) d.rank = .ok last)
    (horder : first ≤ last)
    (h : Inference.reshape d.dims
      (List.replicate first 0 ++ -1 :: (extents.drop (last + 1)).map Int.ofNat) = .ok dims) :
    flatten.Answers site s ⟨d.dtype, dims⟩ := by
  have htrailing : List.Forall₂
      (fun entry n => (trailingExtent entry : Emit Reference.accelerator Int).eval site s =
        (.ok n, s))
      (d.dims.zipIdx.drop (last + 1)) ((extents.drop (last + 1)).map Int.ofNat) := by
    rw [hdims, List.zipIdx_map, List.map_drop]
    refine List.forall₂_drop (last + 1) ?_
    exact trailing_of_fixed extents 0
  refine .after (eval_input_of h0) <| .after (eval_describe_of h0.described) ?_
  rw [if_neg hrank]
  exact .after eval_node <| .after (eval_axis_of hfirst) <| .after (eval_axis_of hlast) <|
    .guard (fun hlt => absurd horder (Nat.not_le.mpr hlt)) <| .after (eval_mapM_of htrailing) <|
      answers_shuffle h0.described h

theorem answers_pad {amounts : List Int} (h0 : s.Supplies site.node 0 x d)
    (hamounts : site.node.ints? "pad" = some amounts)
    (hfits : ¬ (amounts.length % 2 ≠ 0 ∨ d.rank < amounts.length / 2))
    (hpre : (Kernel.padSides d.rank amounts).1.length = d.rank)
    (hpost : (Kernel.padSides d.rank amounts).2.length = d.rank)
    (h : padExtents d.dims (Kernel.padSides d.rank amounts).1 (Kernel.padSides d.rank amounts).2 =
      .ok dims) : pad.Answers site s ⟨d.dtype, dims⟩ :=
  .after (eval_input_of h0) <| .after (eval_describe_of h0.described) <|
    .after (eval_ints_of hamounts) <| .guard (fun hbad => absurd hbad hfits) <|
      .after eval_node <| .layer (.cons h0.described .nil) (infer_pad hpre hpost h)

theorem answers_constant {t : Tensor}
    (hvalue : (site.node.attr? "value").bind Attr.tensor? = some t)
    (hwide : t.dtype.isWide = false) : Converter.constant.Answers site s t.sig := by
  refine .after eval_node <| .after (eval_orFail_of hvalue) ?_
  unfold Emit.constant
  rw [if_pos (by simp [hwide])]
  exact .layer .nil rfl

end Converter

end HybridGraph
