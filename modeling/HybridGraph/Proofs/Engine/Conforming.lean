import HybridGraph.Engine.Run
import HybridGraph.Proofs.Engine.Inferred
/-!
# Results conform to what was inferred

Descriptors are compared extent by extent.  A relation between extents is stable if broadcasting,
padding and reshaping keep it, and then so does every layer:

    Stable r small → Forall₂ (Along r) es ds → (∀ d ∈ ds, small d.dims) → small d.dims →
      kind.infer es = .ok e → kind.infer ds = .ok d → e.Along r d               (infer_along)

A relation that compares sizes needs numbers of elements that machine integers hold, which is what
`small` is for.  To say more about an extent (`Dimension.Refines`) is such a relation.  A layer that
runs is inferred from the descriptors of its operands to have the descriptor of its result
(`infer_of_run`), and these descriptors say more than any to which the operands conform.  So what
was inferred before a run, some extents unknown, describes every run:

    Forall₂ Tensor.Conforms operands descriptors →
      kind.infer descriptors = .ok d → kind.run operands = .ok t → t.Conforms d (conforms_run)
-/

namespace HybridGraph

variable {kind : LayerKind} {e d : TensorSig} {es ds : List TensorSig}

/-! ## Related descriptors -/

/-- One element type, and extents that are related one by one. -/
def TensorSig.Along (r : Dimension → Dimension → Prop) (e d : TensorSig) : Prop :=
  e.dtype = d.dtype ∧ List.Forall₂ r e.dims d.dims

theorem TensorSig.Along.rank_eq {r : Dimension → Dimension → Prop} (h : e.Along r d) :
    e.rank = d.rank := h.2.length_eq

/-- An extent that says no less than another one. -/
def Dimension.Refines (e d : Dimension) : Prop := d = .dynamic ∨ e = d

theorem Dimension.Refines.refl (d : Dimension) : d.Refines d := .inr rfl

namespace Inference

/-- A relation between extents that broadcasting, padding and reshaping keep where the second
extents are small, however they are ordered. -/
structure Stable (r : Dimension → Dimension → Prop) (small : List Dimension → Prop) : Prop where
  fixed (n : Nat) : r (.fixed n) (.fixed n)
  perm {dims moved : List Dimension} (h : dims.Perm moved) (hsmall : small dims) : small moved
  broadcast {a a' b b' c c' : Dimension} (ha : r a a') (hb : r b b')
    (h : broadcastExtent a b = .ok c) (h' : broadcastExtent a' b' = .ok c') : r c c'
  pad {before after : Int} {a a' c c' : Dimension} {dims : List Dimension} (hsmall : small dims)
    (hmem : a' ∈ dims) (ha : r a a') (h : padExtent before after a = .ok c)
    (h' : padExtent before after a' = .ok c') : r c c'
  reshape {dims dims' out out' : List Dimension} {target : List Int} (hsmall : small dims')
    (hlast : small out') (hdims : List.Forall₂ r dims dims') (h : reshape dims target = .ok out)
    (h' : reshape dims' target = .ok out') : List.Forall₂ r out out'

variable {r : Dimension → Dimension → Prop} {small : List Dimension → Prop}
  {dims dims' out out' : List Dimension}

theorem one_eq_ok : one es = .ok e ↔ es = [e] := by
  unfold one
  split <;> simp_all

theorem two_eq_ok {x y : TensorSig} : two es = .ok (x, y) ↔ es = [x, y] := by
  unfold two
  split <;> simp_all

/-- Lists are related where they are related from the end on. -/
theorem forall₂_iff_fromEnd (hone : r (.fixed 1) (.fixed 1)) : List.Forall₂ r dims dims' ↔
    dims.length = dims'.length ∧ ∀ k, r (fromEnd dims k) (fromEnd dims' k) := by
  rw [List.forall₂_iff_get]
  refine and_congr_right fun hlen => ⟨fun h k => ?_, fun h i hi hi' => ?_⟩
  · by_cases hk : k < dims.length
    · rw [fromEnd_of_lt hk, fromEnd_of_lt (hlen ▸ hk)]
      simp only [← hlen]
      exact h _ (by omega) (by omega)
    · rw [fromEnd_of_le (by omega), fromEnd_of_le (by omega)]
      exact hone
  · have hlast := h (dims.length - 1 - i)
    have hback : dims.length - 1 - (dims.length - 1 - i) = i := by omega
    rw [fromEnd_of_lt (by omega), fromEnd_of_lt (by omega)] at hlast
    simpa only [← hlen, hback, List.get_eq_getElem] using hlast

theorem Stable.broadcast_along {lhs lhs' rhs rhs' : List Dimension} (hr : Stable r small)
    (hlhs : List.Forall₂ r lhs lhs') (hrhs : List.Forall₂ r rhs rhs')
    (h : Inference.broadcast lhs rhs = .ok out) (h' : Inference.broadcast lhs' rhs' = .ok out') :
    List.Forall₂ r out out' := by
  obtain ⟨hlen, hextents⟩ := broadcast_eq_ok.mp h
  obtain ⟨hlen', hextents'⟩ := broadcast_eq_ok.mp h'
  refine (forall₂_iff_fromEnd (hr.fixed 1)).mpr ⟨?_, fun k => ?_⟩
  · rw [hlen, hlen', hlhs.length_eq, hrhs.length_eq]
  · exact hr.broadcast (((forall₂_iff_fromEnd (hr.fixed 1)).mp hlhs).2 k)
      (((forall₂_iff_fromEnd (hr.fixed 1)).mp hrhs).2 k) (hextents k) (hextents' k)

theorem productExtents_eq_ok {lhs rhs : List Dimension} (h : productExtents lhs rhs = .ok out) :
    2 ≤ lhs.length ∧ 2 ≤ rhs.length ∧ ∃ batch,
      broadcast (lhs.take (lhs.length - 2)) (rhs.take (rhs.length - 2)) = .ok batch ∧
        batch ++ [fromEnd lhs 1, fromEnd rhs 0] = out := by
  unfold productExtents at h
  obtain ⟨hranks, h⟩ := Outcome.guard_eq_ok.mp h
  rw [not_or, Nat.not_lt, Nat.not_lt] at hranks
  refine ⟨hranks.1, hranks.2, ?_⟩
  have hbatch : (broadcast (lhs.take (lhs.length - 2)) (rhs.take (rhs.length - 2)) >>= fun batch =>
      pure (batch ++ [fromEnd lhs 1, fromEnd rhs 0])) = .ok out := by
    split at h
    · exact (Outcome.guard_eq_ok.mp h).2
    · exact h
  obtain ⟨batch, hbroadcast, hout⟩ := Outcome.bind_eq_ok.mp hbatch
  exact ⟨batch, hbroadcast, Outcome.pure_eq_ok.mp hout⟩

theorem Stable.product_along {lhs lhs' rhs rhs' : List Dimension} (hr : Stable r small)
    (hlhs : List.Forall₂ r lhs lhs') (hrhs : List.Forall₂ r rhs rhs')
    (h : productExtents lhs rhs = .ok out) (h' : productExtents lhs' rhs' = .ok out') :
    List.Forall₂ r out out' := by
  obtain ⟨-, -, batch, hbatch, rfl⟩ := productExtents_eq_ok h
  obtain ⟨-, -, batch', hbatch', rfl⟩ := productExtents_eq_ok h'
  have hrows := ((forall₂_iff_fromEnd (hr.fixed 1)).mp hlhs).2 1
  have hcolumns := ((forall₂_iff_fromEnd (hr.fixed 1)).mp hrhs).2 0
  rw [hlhs.length_eq, hrhs.length_eq] at hbatch
  exact List.rel_append (hr.broadcast_along (List.forall₂_take _ hlhs) (List.forall₂_take _ hrhs)
    hbatch hbatch') (.cons hrows (.cons hcolumns .nil))

theorem Stable.pad_along {pre post : List Int} (hr : Stable r small) (hsmall : small dims')
    (hdims : List.Forall₂ r dims dims') (h : padExtents dims pre post = .ok out)
    (h' : padExtents dims' pre post = .ok out') : List.Forall₂ r out out' := by
  -- the extents of a part of the axes are small as extents of all of them
  suffices hpart : ∀ part part' pre post out out', List.Forall₂ r part part' → part' ⊆ dims' →
      padExtents part pre post = .ok out → padExtents part' pre post = .ok out' →
        List.Forall₂ r out out' from
    hpart dims dims' pre post out out' hdims (List.Subset.refl _) h h'
  clear h h' hdims
  intro part part' pre post out out' hpart hsubset h h'
  induction hpart generalizing pre post out out' with
  | nil =>
    obtain rfl := Except.ok.inj h
    obtain rfl := Except.ok.inj h'
    exact .nil
  | cons hdim _ ih =>
    cases pre with
    | nil =>
      obtain rfl := Except.ok.inj h
      obtain rfl := Except.ok.inj h'
      exact .nil
    | cons before pre =>
      cases post with
      | nil =>
        obtain rfl := Except.ok.inj h
        obtain rfl := Except.ok.inj h'
        exact .nil
      | cons after post =>
        obtain ⟨c, hc, h⟩ := Outcome.bind_eq_ok.mp h
        obtain ⟨rest, hrest, h⟩ := Outcome.bind_eq_ok.mp h
        obtain rfl := Outcome.pure_eq_ok.mp h
        obtain ⟨c', hc', h'⟩ := Outcome.bind_eq_ok.mp h'
        obtain ⟨rest', hrest', h'⟩ := Outcome.bind_eq_ok.mp h'
        obtain rfl := Outcome.pure_eq_ok.mp h'
        obtain ⟨hmem, hsubset⟩ := List.cons_subset.mp hsubset
        exact .cons (hr.pad hsmall hmem hdim hc hc') (ih _ _ _ _ hsubset hrest hrest')

/-- The permutation comes first, then the reshape. -/
theorem shuffleExtents_eq_ok {perm : Option (List Nat)} {target : Option (List Int)} :
    shuffleExtents dims perm target = .ok out ↔ ∃ moved,
      shuffleExtents dims perm none = .ok moved ∧
        target.elim (.ok moved) (reshape moved) = .ok out := by
  have hsplit : shuffleExtents dims perm target =
      shuffleExtents dims perm none >>= fun moved => target.elim (.ok moved) (reshape moved) := by
    unfold shuffleExtents
    cases perm with
    | none => cases target <;> rfl
    | some perm =>
      dsimp only
      split
      · cases target <;> rfl
      · rfl
  rw [hsplit, Outcome.bind_eq_ok]

/-- Axes are permuted by naming every one of them once. -/
theorem permuted_eq_ok {perm : Option (List Nat)} (h : shuffleExtents dims perm none = .ok out) :
    perm.elim dims (fun perm => perm.map fun axis => dims.getD axis (.fixed 1)) = out ∧
      dims.Perm out := by
  unfold shuffleExtents at h
  cases perm with
  | none =>
    obtain rfl := Outcome.pure_eq_ok.mp h
    exact ⟨rfl, .refl _⟩
  | some perm =>
    dsimp only at h
    split at h
    · next hperm =>
      obtain rfl := Outcome.pure_eq_ok.mp h
      rw [isPermutationOf, Bool.and_assoc, Bool.and_eq_true, beq_iff_eq] at hperm
      obtain ⟨hlength, hperm⟩ := hperm
      rw [← hlength] at hperm
      have haxes := Kernel.perm_range_of_isPermutation hperm
      rw [hlength] at haxes
      have hdims : (List.range dims.length).map (fun axis => dims.getD axis (.fixed 1)) = dims :=
        List.ext_getElem (by simp) fun i hi hi' => by simp [hi']
      refine ⟨rfl, ?_⟩
      conv_lhs => rw [← hdims]
      exact (haxes.map _).symm
    · cases h

theorem Stable.permute_along {perm : Option (List Nat)} (hr : Stable r small)
    (hdims : List.Forall₂ r dims dims') (h : shuffleExtents dims perm none = .ok out)
    (h' : shuffleExtents dims' perm none = .ok out') : List.Forall₂ r out out' := by
  rw [← (permuted_eq_ok h).1, ← (permuted_eq_ok h').1]
  cases perm with
  | none => exact hdims
  | some perm =>
    rw [Option.elim_some, Option.elim_some, List.forall₂_map_left_iff,
      List.forall₂_map_right_iff]
    refine List.forall₂_same.mpr fun axis _ => ?_
    by_cases haxis : axis < dims.length
    · rw [List.getD_eq_getElem _ _ haxis, List.getD_eq_getElem _ _ (hdims.length_eq ▸ haxis)]
      exact (List.forall₂_iff_get.mp hdims).2 axis _ _
    · rw [List.getD_eq_default _ _ (by omega),
        List.getD_eq_default _ _ (by rw [← hdims.length_eq]; omega)]
      exact hr.fixed 1

theorem Stable.shuffle_along {perm : Option (List Nat)} {target : Option (List Int)}
    (hr : Stable r small) (hsmall : small dims') (hlast : small out')
    (hdims : List.Forall₂ r dims dims') (h : shuffleExtents dims perm target = .ok out)
    (h' : shuffleExtents dims' perm target = .ok out') : List.Forall₂ r out out' := by
  obtain ⟨moved, hmoved, h⟩ := shuffleExtents_eq_ok.mp h
  obtain ⟨moved', hmoved', h'⟩ := shuffleExtents_eq_ok.mp h'
  have hmoves := hr.permute_along hdims hmoved hmoved'
  cases target with
  | none =>
    obtain rfl := Except.ok.inj h
    obtain rfl := Except.ok.inj h'
    exact hmoves
  | some target => exact hr.reshape (hr.perm (permuted_eq_ok hmoved').2 hsmall) hlast hmoves h h'

theorem Stable.reduce_along (hr : Stable r small) (hdims : List.Forall₂ r dims dims')
    (axes : List Nat)
    (keep : Bool) : List.Forall₂ r (reduceExtents dims axes keep)
      (reduceExtents dims' axes keep) := by
  have hplaces : ∀ first, List.Forall₂ (fun entry entry' : Dimension × Nat =>
      r entry.1 entry'.1 ∧ entry.2 = entry'.2) (dims.zipIdx first) (dims'.zipIdx first) := by
    induction hdims with
    | nil => exact fun _ => .nil
    | cons hdim _ ih => exact fun first => .cons ⟨hdim, rfl⟩ (ih (first + 1))
  refine List.rel_filterMap ?_ (hplaces 0)
  rintro ⟨dim, axis⟩ ⟨dim', _⟩ ⟨hdim, rfl⟩
  dsimp only
  split
  · exact .some hdim
  · split
    · exact .some (hr.fixed 1)
    · exact .none

end Inference

/-! ## Layers -/

namespace LayerKind

open Inference

/-- The operands that a layer takes and the descriptor of its result. -/
inductive Infers : LayerKind → List TensorSig → TensorSig → Prop where
  | constant (value : Tensor) : Infers (.constant value) [] value.sig
  | activation {function : Activation} {x : TensorSig} (hfloat : x.dtype.isFloat = true) :
      Infers (.activation function) [x] x
  | unary {op : UnaryOp} {x : TensorSig}
      (hop : op = .neg ∨ op = .abs ∨ x.dtype.isFloat = true) : Infers (.unary op) [x] x
  | elementWise {op : BinaryOp} {x y : TensorSig} {dims : List Dimension}
      (hdtype : y.dtype = x.dtype) (hpow : op = .pow → x.dtype.isFloat = true)
      (hdims : broadcast x.dims y.dims = .ok dims) :
      Infers (.elementWise op) [x, y] ⟨x.dtype, dims⟩
  | parametricRelu {x slope : TensorSig} (hfloat : x.dtype.isFloat = true)
      (hrank : slope.rank ≤ 1) : Infers .parametricRelu [x, slope] x
  | matrixMultiply {x y : TensorSig} {dims : List Dimension} (hfloat : x.dtype.isFloat = true)
      (hdtype : y.dtype = x.dtype) (hdims : productExtents x.dims y.dims = .ok dims) :
      Infers .matrixMultiply [x, y] ⟨x.dtype, dims⟩
  | pad {pre post : List Int} {value : Float} {x : TensorSig} {dims : List Dimension}
      (hpre : pre.length = x.rank) (hpost : post.length = x.rank)
      (hdims : padExtents x.dims pre post = .ok dims) :
      Infers (.pad pre post value) [x] ⟨x.dtype, dims⟩
  | shuffle {perm : Option (List Nat)} {target : Option (List Int)} {x : TensorSig}
      {dims : List Dimension} (hdims : shuffleExtents x.dims perm target = .ok dims) :
      Infers (.shuffle perm target) [x] ⟨x.dtype, dims⟩
  | softmax {axis : Nat} {x : TensorSig} (hfloat : x.dtype.isFloat = true)
      (haxis : axis < max x.rank 1) : Infers (.softmax axis) [x] x
  | reduce {op : ReduceOp} {axes : List Nat} {keep : Bool} {x : TensorSig}
      (hop : op = .mean → x.dtype.isFloat = true) (haxes : ∀ axis ∈ axes, axis < max x.rank 1) :
      Infers (.reduce op axes keep) [x] ⟨x.dtype, reduceExtents x.dims axes keep⟩
  | identity {x : TensorSig} (dtype : DType) : Infers (.identity dtype) [x] ⟨dtype, x.dims⟩

theorem infer_of_infers (h : kind.Infers ds d) : kind.infer ds = .ok d := by
  cases h with
  | constant value => rfl
  | activation hfloat => exact infer_activation hfloat
  | unary hop => exact infer_unary hop
  | elementWise hdtype hpow hdims => exact infer_elementWise hdtype hpow hdims
  | parametricRelu hfloat hrank => exact infer_parametricRelu hfloat hrank
  | matrixMultiply hfloat hdtype hdims => exact infer_matrixMultiply hfloat hdtype hdims
  | pad hpre hpost hdims => exact infer_pad hpre hpost hdims
  | shuffle hdims => exact infer_shuffle hdims
  | softmax hfloat haxis => exact infer_softmax hfloat haxis
  | reduce hop haxes => exact infer_reduce hop haxes
  | identity dtype => rfl

theorem needFloat_eq_ok {x : TensorSig} : needFloat x = .ok () ↔ x.dtype.isFloat = true := by
  unfold needFloat
  split <;> simp_all

theorem needSameType_eq_ok {x y : TensorSig} : needSameType x y = .ok () ↔ x.dtype = y.dtype := by
  unfold needSameType
  split <;> simp_all

theorem needAxis_eq_ok {axis rank : Nat} : needAxis axis rank = .ok () ↔ axis < max rank 1 := by
  unfold needAxis
  split <;> simp_all

theorem infers_of_infer (hinfer : kind.infer ds = .ok d) : kind.Infers ds d := by
  cases kind with
  | constant value =>
    unfold infer at hinfer
    dsimp only at hinfer
    split at hinfer
    · next hnone =>
      obtain rfl := Outcome.pure_eq_ok.mp hinfer
      rw [List.isEmpty_iff.mp hnone]
      exact .constant value
    · cases hinfer
  | activation function =>
    obtain ⟨x, hx, h⟩ := Outcome.bind_eq_ok.mp hinfer
    obtain ⟨⟨⟩, hfloat, h⟩ := Outcome.bind_eq_ok.mp h
    obtain rfl := one_eq_ok.mp hx
    obtain rfl := Outcome.pure_eq_ok.mp h
    exact .activation (needFloat_eq_ok.mp hfloat)
  | unary op =>
    obtain ⟨x, hx, h⟩ := Outcome.bind_eq_ok.mp hinfer
    obtain rfl := one_eq_ok.mp hx
    dsimp only at h
    split at h
    · obtain ⟨⟨⟩, hfloat, h⟩ := Outcome.bind_eq_ok.mp h
      obtain rfl := Outcome.pure_eq_ok.mp h
      exact .unary (.inr (.inr (needFloat_eq_ok.mp hfloat)))
    · next hop =>
      obtain rfl := Outcome.pure_eq_ok.mp h
      exact .unary (by tauto)
  | elementWise op =>
    obtain ⟨⟨x, y⟩, hxy, h⟩ := Outcome.bind_eq_ok.mp hinfer
    obtain rfl := two_eq_ok.mp hxy
    obtain ⟨⟨⟩, hdtype, h⟩ := Outcome.bind_eq_ok.mp h
    have hdtype := (needSameType_eq_ok.mp hdtype).symm
    dsimp only at h
    split at h
    · obtain ⟨⟨⟩, hfloat, h⟩ := Outcome.bind_eq_ok.mp h
      obtain ⟨dims, hdims, h⟩ := Outcome.bind_eq_ok.mp h
      obtain rfl := Outcome.pure_eq_ok.mp h
      exact .elementWise hdtype (fun _ => needFloat_eq_ok.mp hfloat) hdims
    · next hop =>
      obtain ⟨dims, hdims, h⟩ := Outcome.bind_eq_ok.mp h
      obtain rfl := Outcome.pure_eq_ok.mp h
      exact .elementWise hdtype (fun hpow => absurd hpow hop) hdims
  | parametricRelu =>
    obtain ⟨⟨x, slope⟩, hxy, h⟩ := Outcome.bind_eq_ok.mp hinfer
    obtain rfl := two_eq_ok.mp hxy
    obtain ⟨⟨⟩, hfloat, h⟩ := Outcome.bind_eq_ok.mp h
    obtain ⟨hrank, h⟩ := Outcome.guard_eq_ok.mp h
    obtain rfl := Outcome.pure_eq_ok.mp h
    exact .parametricRelu (needFloat_eq_ok.mp hfloat) (Nat.not_lt.mp hrank)
  | matrixMultiply =>
    obtain ⟨⟨x, y⟩, hxy, h⟩ := Outcome.bind_eq_ok.mp hinfer
    obtain rfl := two_eq_ok.mp hxy
    obtain ⟨⟨⟩, hfloat, h⟩ := Outcome.bind_eq_ok.mp h
    obtain ⟨⟨⟩, hdtype, h⟩ := Outcome.bind_eq_ok.mp h
    obtain ⟨dims, hdims, h⟩ := Outcome.bind_eq_ok.mp h
    obtain rfl := Outcome.pure_eq_ok.mp h
    exact .matrixMultiply (needFloat_eq_ok.mp hfloat) (needSameType_eq_ok.mp hdtype).symm hdims
  | pad pre post value =>
    obtain ⟨x, hx, h⟩ := Outcome.bind_eq_ok.mp hinfer
    obtain rfl := one_eq_ok.mp hx
    obtain ⟨hranks, h⟩ := Outcome.guard_eq_ok.mp h
    obtain ⟨dims, hdims, h⟩ := Outcome.bind_eq_ok.mp h
    obtain rfl := Outcome.pure_eq_ok.mp h
    rw [not_or, not_not, not_not] at hranks
    exact .pad hranks.1 hranks.2 hdims
  | shuffle perm target =>
    obtain ⟨x, hx, h⟩ := Outcome.bind_eq_ok.mp hinfer
    obtain rfl := one_eq_ok.mp hx
    obtain ⟨dims, hdims, h⟩ := Outcome.bind_eq_ok.mp h
    obtain rfl := Outcome.pure_eq_ok.mp h
    exact .shuffle hdims
  | softmax axis =>
    obtain ⟨x, hx, h⟩ := Outcome.bind_eq_ok.mp hinfer
    obtain rfl := one_eq_ok.mp hx
    obtain ⟨⟨⟩, hfloat, h⟩ := Outcome.bind_eq_ok.mp h
    obtain ⟨⟨⟩, haxis, h⟩ := Outcome.bind_eq_ok.mp h
    obtain rfl := Outcome.pure_eq_ok.mp h
    exact .softmax (needFloat_eq_ok.mp hfloat) (needAxis_eq_ok.mp haxis)
  | reduce op axes keep =>
    obtain ⟨x, hx, h⟩ := Outcome.bind_eq_ok.mp hinfer
    obtain rfl := one_eq_ok.mp hx
    have hlast : ∀ {d : TensorSig}, (axes.forM (needAxis · x.rank) >>= fun _ =>
        pure (TensorSig.mk x.dtype (reduceExtents x.dims axes keep))) = .ok d →
        (∀ axis ∈ axes, axis < max x.rank 1) ∧ ⟨x.dtype, reduceExtents x.dims axes keep⟩ = d := by
      intro d h
      obtain ⟨⟨⟩, haxes, h⟩ := Outcome.bind_eq_ok.mp h
      exact ⟨fun axis hmem => needAxis_eq_ok.mp (Outcome.forM_eq_ok.mp haxes axis hmem),
        Outcome.pure_eq_ok.mp h⟩
    dsimp only at h
    split at h
    · obtain ⟨⟨⟩, hfloat, h⟩ := Outcome.bind_eq_ok.mp h
      obtain ⟨haxes, rfl⟩ := hlast h
      exact .reduce (fun _ => needFloat_eq_ok.mp hfloat) haxes
    · next hop =>
      obtain ⟨haxes, rfl⟩ := hlast h
      exact .reduce (fun hmean => absurd hmean hop) haxes
  | identity dtype =>
    obtain ⟨x, hx, h⟩ := Outcome.bind_eq_ok.mp hinfer
    obtain rfl := one_eq_ok.mp hx
    obtain rfl := Outcome.pure_eq_ok.mp h
    exact .identity dtype

/-- Every layer keeps a stable relation between descriptors that are small. -/
theorem infer_along {r : Dimension → Dimension → Prop} {small : List Dimension → Prop}
    (hr : Stable r small) (hops : List.Forall₂ (TensorSig.Along r) es ds)
    (hsmall : ∀ d ∈ ds, small d.dims) (hlast : small d.dims) (he : kind.infer es = .ok e)
    (hd : kind.infer ds = .ok d) : e.Along r d := by
  have hd := infers_of_infer hd
  cases infers_of_infer he with
  | constant value =>
    cases hd
    refine ⟨rfl, ?_⟩
    rw [Tensor.sig, TensorSig.of, List.forall₂_same]
    intro dim hdim
    obtain ⟨n, -, rfl⟩ := List.mem_map.mp hdim
    exact hr.fixed n
  | activation =>
    cases hd
    exact (List.forall₂_cons.mp hops).1
  | unary =>
    cases hd
    exact (List.forall₂_cons.mp hops).1
  | elementWise _ _ hdims =>
    cases hd with
    | elementWise _ _ hdims' =>
      obtain ⟨hx, hops⟩ := List.forall₂_cons.mp hops
      obtain ⟨hy, -⟩ := List.forall₂_cons.mp hops
      exact ⟨hx.1, hr.broadcast_along hx.2 hy.2 hdims hdims'⟩
  | parametricRelu =>
    cases hd
    exact (List.forall₂_cons.mp hops).1
  | matrixMultiply _ _ hdims =>
    cases hd with
    | matrixMultiply _ _ hdims' =>
      obtain ⟨hx, hops⟩ := List.forall₂_cons.mp hops
      obtain ⟨hy, -⟩ := List.forall₂_cons.mp hops
      exact ⟨hx.1, hr.product_along hx.2 hy.2 hdims hdims'⟩
  | pad _ _ hdims =>
    cases hd with
    | pad _ _ hdims' =>
      have hx := (List.forall₂_cons.mp hops).1
      exact ⟨hx.1, hr.pad_along (hsmall _ List.mem_cons_self) hx.2 hdims hdims'⟩
  | shuffle hdims =>
    cases hd with
    | shuffle hdims' =>
      have hx := (List.forall₂_cons.mp hops).1
      exact ⟨hx.1, hr.shuffle_along (hsmall _ List.mem_cons_self) hlast hx.2 hdims hdims'⟩
  | softmax =>
    cases hd
    exact (List.forall₂_cons.mp hops).1
  | reduce =>
    cases hd
    have hx := (List.forall₂_cons.mp hops).1
    exact ⟨hx.1, hr.reduce_along hx.2 _ _⟩
  | identity =>
    cases hd
    exact ⟨rfl, (List.forall₂_cons.mp hops).1.2⟩

theorem extents_of_shuffle {x t : Tensor} {perm : Option (List Nat)} {target : Option (List Int)}
    (hrun : (shuffle perm target).run [x] = .ok t) :
    t.dtype = x.dtype ∧ shuffleExtents x.sig.dims perm target = .ok t.sig.dims := by
  obtain ⟨moved, hmoved, hreshape⟩ := Outcome.bind_eq_ok.mp
    (show (perm.elim (.ok x) (Kernel.permute x) >>= fun x => _) = .ok t from hrun)
  have hperm : moved.dtype = x.dtype ∧
      shuffleExtents x.sig.dims perm none = .ok moved.sig.dims := by
    cases perm with
    | none =>
      obtain rfl := Except.ok.inj hmoved
      exact ⟨rfl, rfl⟩
    | some perm => exact Kernel.sig_of_permute hmoved
  cases target with
  | none =>
    obtain rfl := Outcome.pure_eq_ok.mp hreshape
    exact hperm
  | some target =>
    obtain ⟨dims, hdims, hreshape⟩ := Outcome.bind_eq_ok.mp hreshape
    have hsig := Kernel.sig_of_reshape hreshape
    have hinferred := reshape_of_resolveShape (.inl rfl) hdims
    refine ⟨(congrArg TensorSig.dtype hsig).trans hperm.1, ?_⟩
    rw [hsig]
    exact shuffleExtents_eq_ok.mpr ⟨_, hperm.2, hinferred⟩

/-- A layer that runs on tensors of the inferred element types and ranks is inferred, from their
own descriptors, to have the result that it has. -/
theorem infer_of_run {operands : List Tensor} {t : Tensor}
    (hops : List.Forall₂ (fun t d => TensorSig.Along (fun _ _ => True) t.sig d) operands ds)
    (hinfer : kind.infer ds = .ok d) (hrun : kind.run operands = .ok t) :
    kind.infer (operands.map Tensor.sig) = .ok t.sig := by
  refine infer_of_infers ?_
  cases infers_of_infer hinfer with
  | constant value =>
    cases hops
    obtain rfl := Outcome.pure_eq_ok.mp hrun
    exact .constant value
  | activation hfloat =>
    obtain ⟨x, _, hx, ⟨⟩, rfl⟩ := List.forall₂_cons_right_iff.mp hops
    have hsig : t.sig = x.sig := Kernel.sig_of_map hrun
    rw [hsig]
    exact .activation (hx.1 ▸ hfloat)
  | @unary op _ hop =>
    obtain ⟨x, _, hx, ⟨⟩, rfl⟩ := List.forall₂_cons_right_iff.mp hops
    have hop : op = .neg ∨ op = .abs ∨ x.sig.dtype.isFloat = true := hx.1 ▸ hop
    have hresult : op.resultType x.dtype = x.dtype := by
      rcases hop with rfl | rfl | hfloat
      · rfl
      · rfl
      · cases op with
        | neg => rfl
        | abs => rfl
        | _ => exact if_pos hfloat
    have hsig : t.sig = ⟨op.resultType x.dtype, x.sig.dims⟩ := Kernel.sig_of_map hrun
    rw [hsig, hresult]
    exact .unary hop
  | elementWise hdtype hpow =>
    obtain ⟨x, _, hx, hrest, rfl⟩ := List.forall₂_cons_right_iff.mp hops
    obtain ⟨y, _, hy, ⟨⟩, rfl⟩ := List.forall₂_cons_right_iff.mp hrest
    have hsame : y.sig.dtype = x.sig.dtype := by rw [hx.1, hy.1, hdtype]
    obtain ⟨hresult, hdims⟩ := Kernel.sig_of_binary hrun
    rw [Tensor.sig_eq_iff.mpr ⟨hresult.trans (if_pos hsame.symm), rfl⟩]
    exact .elementWise hsame (fun h => hx.1 ▸ hpow h) hdims
  | parametricRelu hfloat hrank =>
    obtain ⟨x, _, hx, hrest, rfl⟩ := List.forall₂_cons_right_iff.mp hops
    obtain ⟨slope, _, hslope, ⟨⟩, rfl⟩ := List.forall₂_cons_right_iff.mp hrest
    rw [Kernel.sig_of_prelu hrun]
    exact .parametricRelu (hx.1 ▸ hfloat) (hslope.rank_eq ▸ hrank)
  | matrixMultiply hfloat hdtype hdims =>
    obtain ⟨x, _, hx, hrest, rfl⟩ := List.forall₂_cons_right_iff.mp hops
    obtain ⟨y, _, hy, ⟨⟩, rfl⟩ := List.forall₂_cons_right_iff.mp hrest
    have hsame : y.sig.dtype = x.sig.dtype := by rw [hx.1, hy.1, hdtype]
    obtain ⟨hrows, hcolumns, -⟩ := productExtents_eq_ok hdims
    have hresult := (Kernel.dtype_of_matmul hrun).trans (if_pos hsame.symm)
    rw [Tensor.sig_eq_iff.mpr ⟨hresult, rfl⟩]
    exact .matrixMultiply (hx.1 ▸ hfloat) hsame (Kernel.sig_of_matmul
      (x.rank_sig ▸ hx.rank_eq ▸ hrows) (y.rank_sig ▸ hy.rank_eq ▸ hcolumns) hrun)
  | pad =>
    obtain ⟨x, _, -, ⟨⟩, rfl⟩ := List.forall₂_cons_right_iff.mp hops
    obtain ⟨hresult, hpre, hpost, hdims⟩ := Kernel.sig_of_pad hrun
    rw [Tensor.sig_eq_iff.mpr ⟨hresult, rfl⟩]
    exact .pad (x.rank_sig ▸ hpre) (x.rank_sig ▸ hpost) hdims
  | shuffle =>
    obtain ⟨x, _, -, ⟨⟩, rfl⟩ := List.forall₂_cons_right_iff.mp hops
    obtain ⟨hresult, hdims⟩ := extents_of_shuffle hrun
    rw [Tensor.sig_eq_iff.mpr ⟨hresult, rfl⟩]
    exact .shuffle hdims
  | softmax hfloat haxis =>
    obtain ⟨x, _, hx, ⟨⟩, rfl⟩ := List.forall₂_cons_right_iff.mp hops
    have hsig : t.sig = x.sig := Kernel.sig_of_softmax hrun
    rw [hsig]
    exact .softmax (hx.1 ▸ hfloat) (hx.rank_eq ▸ haxis)
  | reduce hop haxes =>
    obtain ⟨x, _, hx, ⟨⟩, rfl⟩ := List.forall₂_cons_right_iff.mp hops
    have hsig : t.sig = ⟨x.dtype, reduceExtents x.sig.dims _ _⟩ := Kernel.sig_of_reduce hrun
    rw [hsig]
    exact .reduce (fun h => hx.1 ▸ hop h) (hx.rank_eq ▸ haxes)
  | identity dtype =>
    obtain ⟨x, _, -, ⟨⟩, rfl⟩ := List.forall₂_cons_right_iff.mp hops
    obtain rfl := Outcome.pure_eq_ok.mp hrun
    rw [Tensor.sig_cast]
    exact .identity dtype

end LayerKind

/-! ## Reshapes -/

namespace Inference

variable {r : Dimension → Dimension → Prop} {dims dims' out out' : List Dimension}

theorem resolves_of_targetExtents {whole target : List Int} {axis : Nat}
    (h : targetExtents dims whole axis target = .ok out) :
    List.Forall₂ (Resolves dims) (target.zipIdx axis) out := by
  induction target generalizing axis out with
  | nil =>
    obtain rfl := Except.ok.inj h
    exact .nil
  | cons extent target ih =>
    have hlater : ∀ {dim : Dimension}, (targetExtents dims whole (axis + 1) target >>= fun rest =>
        pure (dim :: rest)) = .ok out → Resolves dims (extent, axis) dim →
        List.Forall₂ (Resolves dims) ((extent :: target).zipIdx axis) out := by
      intro dim h hdim
      obtain ⟨rest, hrest, h⟩ := Outcome.bind_eq_ok.mp h
      obtain rfl := Outcome.pure_eq_ok.mp h
      exact .cons hdim (ih hrest)
    unfold targetExtents at h
    split at h
    · next hminus =>
      subst hminus
      exact hlater h (.inferred axis)
    · split at h
      · next hzero =>
        subst hzero
        split at h
        · next hdim => exact hlater h (.copied hdim)
        · cases h
      · split at h
        · next hpos => exact hlater h (.given axis hpos)
        · cases h

/-- Entries that are not inferred follow the operand's extents. -/
theorem forall₂_of_resolves {target : List Int} {axis : Nat} (hfixed : ∀ n, r (.fixed n) (.fixed n))
    (hdims : List.Forall₂ r dims dims') (hnone : -1 ∉ target)
    (h : List.Forall₂ (Resolves dims) (target.zipIdx axis) out)
    (h' : List.Forall₂ (Resolves dims') (target.zipIdx axis) out') : List.Forall₂ r out out' := by
  induction target generalizing axis out out' with
  | nil =>
    obtain rfl := List.forall₂_nil_left_iff.mp h
    obtain rfl := List.forall₂_nil_left_iff.mp h'
    exact .nil
  | cons extent target ih =>
    obtain ⟨dim, rest, hdim, hrest, rfl⟩ := List.forall₂_cons_left_iff.mp h
    obtain ⟨dim', rest', hdim', hrest', rfl⟩ := List.forall₂_cons_left_iff.mp h'
    rw [List.mem_cons, not_or] at hnone
    refine .cons ?_ (ih hnone.2 hrest hrest')
    cases hdim with
    | inferred => exact absurd rfl hnone.1
    | given _ hpos =>
      cases hdim' with
      | copied => cases hpos
      | given => exact hfixed _
      | inferred => cases hpos
    | copied hcopied =>
      cases hdim' with
      | given _ hpos => cases hpos
      | copied hcopied' =>
        obtain ⟨hlt, rfl⟩ := List.getElem?_eq_some_iff.mp hcopied
        obtain ⟨hlt', rfl⟩ := List.getElem?_eq_some_iff.mp hcopied'
        exact (List.forall₂_iff_get.mp hdims).2 axis hlt hlt'

theorem reshape_eq_ok_of_notMem {target : List Int} (hnone : -1 ∉ target)
    (h : reshape dims target = .ok out) : List.Forall₂ (Resolves dims) target.zipIdx out := by
  unfold reshape at h
  obtain ⟨-, h⟩ := Outcome.guard_eq_ok.mp h
  obtain ⟨extents, hextents, h⟩ := Outcome.bind_eq_ok.mp h
  dsimp only at h
  rw [if_pos (Nat.le_of_eq (List.idxOf_eq_length hnone).symm)] at h
  obtain rfl := Outcome.pure_eq_ok.mp h
  exact resolves_of_targetExtents hextents

/-- The extent that a reshape infers, given the extents beside it. -/
inductive Infers (dims others : List Dimension) : Dimension → Prop where
  | quotient {total known : Nat} (htotal : count? dims = some total)
      (hknown : count? others = some known) (hne : known ≠ 0) (hdivides : total % known = 0) :
      Infers dims others (.fixed (total / known))
  | unknown (hunknown : count? dims = none ∨ count? others = none) : Infers dims others .dynamic

theorem reshape_eq_ok_of_split {fronts backs : List Int} (hfronts : -1 ∉ fronts)
    (h : reshape dims (fronts ++ -1 :: backs) = .ok out) :
    -1 ∉ backs ∧ ∃ front inferred back, out = front ++ inferred :: back ∧
      List.Forall₂ (Resolves dims) fronts.zipIdx front ∧
      List.Forall₂ (Resolves dims) (backs.zipIdx (fronts.length + 1)) back ∧
      Infers dims (front ++ back) inferred := by
  unfold reshape at h
  obtain ⟨hone, h⟩ := Outcome.guard_eq_ok.mp h
  obtain ⟨extents, hextents, h⟩ := Outcome.bind_eq_ok.mp h
  obtain ⟨front, back, rfl, hfront, hback⟩ :=
    exists_split_of_resolves (resolves_of_targetExtents hextents)
  have hlen : fronts.length = front.length := by simpa using hfront.length_eq
  have hplace : (fronts ++ -1 :: backs).idxOf (-1) = front.length := by
    rw [List.idxOf_append_of_notMem hfronts, List.idxOf_cons_self, Nat.add_zero, hlen]
  have hothers : (front ++ .dynamic :: back).eraseIdx front.length = front ++ back := by
    rw [List.eraseIdx_append_of_length_le (Nat.le_refl _), Nat.sub_self, List.eraseIdx_cons_zero]
  have hset : ∀ dim, (front ++ .dynamic :: back).set front.length dim = front ++ dim :: back := by
    intro dim
    rw [List.set_append_right _ _ (Nat.le_refl _), Nat.sub_self, List.set_cons_zero]
  refine ⟨fun hmem => hone ?_, ?_⟩
  · rw [List.count_append, List.count_cons_self]
    have := List.count_pos_iff.mpr hmem
    omega
  · dsimp only at h
    rw [hplace, if_neg (by simp [hlen]), hothers] at h
    split at h
    · next total known htotal hknown =>
      obtain ⟨hdivides, h⟩ := Outcome.guard_eq_ok.mp h
      obtain rfl := Outcome.pure_eq_ok.mp h
      rw [not_or, not_not] at hdivides
      exact ⟨front, _, back, hset _, hfront, hback,
        .quotient htotal hknown hdivides.1 hdivides.2⟩
    · next hunknown =>
      obtain rfl := Outcome.pure_eq_ok.mp h
      refine ⟨front, _, back, rfl, hfront, hback, .unknown ?_⟩
      by_contra hknown
      rw [not_or] at hknown
      obtain ⟨total, htotal⟩ := Option.ne_none_iff_exists'.mp hknown.1
      obtain ⟨known, hknown⟩ := Option.ne_none_iff_exists'.mp hknown.2
      exact hunknown total known htotal hknown

end Inference

/-! ## Unknown extents -/

namespace Inference

variable {dims dims' : List Dimension}

theorem eq_map_of_fixedExtents? {known : List Nat} (h : fixedExtents? dims = some known) :
    dims = known.map .fixed := by
  induction dims generalizing known with
  | nil =>
    obtain rfl := Option.some.inj h
    rfl
  | cons dim dims ih =>
    rw [fixedExtents?, List.mapM_cons] at h
    obtain ⟨n, hn, h⟩ := Option.bind_eq_some_iff.mp h
    obtain ⟨rest, hrest, h⟩ := Option.bind_eq_some_iff.mp h
    obtain rfl := Option.some.inj h
    rw [ih hrest, List.map_cons]
    cases dim with
    | fixed m => rw [Option.some.inj hn]
    | dynamic => cases hn

/-- Known extents say all there is to say. -/
theorem eq_of_refines_fixed {known : List Nat}
    (h : List.Forall₂ Dimension.Refines dims (known.map .fixed)) : dims = known.map .fixed := by
  induction known generalizing dims with
  | nil => exact List.forall₂_nil_right_iff.mp h
  | cons n known ih =>
    obtain ⟨dim, rest, hdim, hrest, rfl⟩ := List.forall₂_cons_right_iff.mp h
    rw [ih hrest]
    rcases hdim with hopen | rfl
    · cases hopen
    · rfl

theorem eq_of_refines_of_count {total : Nat} (h : List.Forall₂ Dimension.Refines dims dims')
    (hknown : count? dims' = some total) : dims = dims' := by
  obtain ⟨known, hknown, -⟩ := Option.map_eq_some_iff.mp hknown
  obtain rfl := eq_map_of_fixedExtents? hknown
  exact eq_of_refines_fixed h

/-- To say more about extents is kept by all that is done with them. -/
theorem stable_refines : Stable Dimension.Refines fun _ => True where
  fixed n := .inr rfl
  perm _ h := h
  broadcast ha hb h h' := by
    unfold Dimension.Refines at *
    unfold broadcastExtent at h h'
    rcases ha with rfl | rfl <;> rcases hb with rfl | rfl <;> grind
  pad _ _ ha h h' := by
    rcases ha with rfl | rfl
    · obtain rfl := Except.ok.inj h'
      exact .inl rfl
    · rw [h] at h'
      exact .inr (Except.ok.inj h')
  reshape {_ dims' _ _ target} _ _ hdims h h' := by
    cases hcount : count? dims' with
    | some total =>
      obtain rfl := eq_of_refines_of_count hdims hcount
      obtain rfl := Except.ok.inj (h.symm.trans h')
      exact List.forall₂_same.mpr fun dim _ => .refl dim
    | none =>
      by_cases hmem : -1 ∈ target
      · obtain ⟨fronts, backs, rfl, hfronts⟩ := List.eq_append_cons_of_mem hmem
        obtain ⟨hbacks, front, inferred, back, rfl, hfront, hback, -⟩ :=
          reshape_eq_ok_of_split hfronts h
        obtain ⟨-, front', inferred', back', rfl, hfront', hback', hinferred⟩ :=
          reshape_eq_ok_of_split hfronts h'
        have hopen : inferred' = .dynamic := by
          cases hinferred with
          | quotient htotal => cases hcount.symm.trans htotal
          | unknown => rfl
        exact List.rel_append
          (forall₂_of_resolves (fun n => .refl _) hdims hfronts hfront hfront')
          (.cons (.inl hopen) (forall₂_of_resolves (fun n => .refl _) hdims hbacks hback hback'))
      · exact forall₂_of_resolves (fun n => .refl _) hdims hmem (reshape_eq_ok_of_notMem hmem h)
          (reshape_eq_ok_of_notMem hmem h')

end Inference

/-- The extents that a descriptor allows on an axis. -/
def Dimension.Admits : Dimension → Nat → Prop
  | .fixed n, extent => extent = n
  | .dynamic, _ => True

/-- A tensor is as a descriptor says: its element type, its rank and all known extents. -/
def Tensor.Conforms (t : Tensor) (d : TensorSig) : Prop :=
  t.dtype = d.dtype ∧ List.Forall₂ (fun extent dim => dim.Admits extent) t.dims d.dims

/-- A tensor conforms to the descriptors that say no more than its own. -/
theorem Tensor.conforms_iff_along {t : Tensor} :
    t.Conforms d ↔ t.sig.Along Dimension.Refines d := by
  have hallowed : (fun extent (dim : Dimension) => dim.Admits extent) =
      fun extent dim => (Dimension.fixed extent).Refines dim := by
    funext extent dim
    cases dim <;> simp [Dimension.Admits, Dimension.Refines]
  refine and_congr_right fun _ => ?_
  rw [sig, TensorSig.of, List.forall₂_map_left_iff, hallowed]

/-- A result says more than what was inferred from less than the operands say. -/
theorem LayerKind.refines_of_run {operands : List Tensor} {t : Tensor}
    (hoperands : List.Forall₂ (fun t d => TensorSig.Along Dimension.Refines t.sig d) operands ds)
    (hinfer : kind.infer ds = .ok d) (hrun : kind.run operands = .ok t) :
    t.sig.Along Dimension.Refines d := by
  have hframes : List.Forall₂ (fun t d => TensorSig.Along (fun _ _ => True) t.sig d) operands ds :=
    hoperands.imp fun _ _ h => ⟨h.1, h.2.imp fun _ _ _ => trivial⟩
  exact infer_along Inference.stable_refines (List.forall₂_map_left_iff.mpr hoperands)
    (fun _ _ => trivial) trivial (infer_of_run hframes hinfer hrun) hinfer

/-- What was inferred from descriptors describes the results on all tensors that conform to them. -/
theorem conforms_run {kind : LayerKind} {descriptors : List TensorSig} {operands : List Tensor}
    {d : TensorSig} {t : Tensor} (hoperands : List.Forall₂ Tensor.Conforms operands descriptors)
    (hinfer : kind.infer descriptors = .ok d) (hrun : kind.run operands = .ok t) :
    t.Conforms d :=
  Tensor.conforms_iff_along.mpr (LayerKind.refines_of_run
    (hoperands.imp fun _ _ => Tensor.conforms_iff_along.mp) hinfer hrun)

/-- Two rows of three pairs have their last two axes merged.  Of the operand only the last extent is
known, so of the result none is. -/
theorem conforms_run_merging :
    let operand : Tensor := ⟨.i32, [2, 3, 2], .i32 #[1, 2, 3, 4, 5, 6, 7, 8, 9, 10, 11, 12]⟩
    let result : Tensor := ⟨.i32, [2, 6], .i32 #[1, 2, 3, 4, 5, 6, 7, 8, 9, 10, 11, 12]⟩
    (LayerKind.shuffle none (some [0, -1])).run [operand] = .ok result ∧
      result.Conforms ⟨.i32, [.dynamic, .dynamic]⟩ :=
  ⟨rfl, @conforms_run (.shuffle none (some [0, -1])) [⟨.i32, [.dynamic, .dynamic, .fixed 2]⟩]
    [⟨.i32, [2, 3, 2], .i32 #[1, 2, 3, 4, 5, 6, 7, 8, 9, 10, 11, 12]⟩] _ _
    (.cons ⟨rfl, .cons trivial (.cons trivial (.cons rfl .nil))⟩ .nil) (by decide) rfl⟩

end HybridGraph
