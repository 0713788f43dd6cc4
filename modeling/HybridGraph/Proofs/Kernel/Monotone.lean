import HybridGraph.Proofs.Engine.Monotone
/-!
# Kernels on larger operands

An operand is at most another one if both have one rank and no extent of the first is larger
(`Tensor.AtMost`).  Whatever a kernel makes of the two is ordered in the same way, as long as it
succeeds on both and is given the same axes, amounts and targets:

    a.AtMost a' → b.AtMost b' →
      matmul a b = .ok y → matmul a' b' = .ok y' → y.AtMost y'                (atMost_matmul)
    ns ≤ ns' → volume ns' < 2 ^ 64 → resolveShape ns target false = .ok out →
      resolveShape ns' target false = .ok out' → out ≤ out'                   (resolveShape_le)

A sum of an extent and two amounts and a number of elements have to be what machine integers hold of
them, so an operand that is padded or reshaped must be small.  Broadcasting, permutations, padding
and reductions inherit this from inference.  Products do not: the kernel also takes vectors.
-/

namespace HybridGraph

/-- One rank, and no extent larger than that of the other. -/
def Tensor.AtMost (t u : Tensor) : Prop := List.Forall₂ (· ≤ ·) t.dims u.dims

namespace Tensor.AtMost

variable {t u x x' y y' : Tensor}

theorem refl (t : Tensor) : t.AtMost t := List.forall₂_same.mpr fun n _ => Nat.le_refl n

theorem rank_eq (h : t.AtMost u) : t.rank = u.rank := h.length_eq

theorem iff_sig : t.AtMost u ↔ List.Forall₂ Dimension.AtMost t.sig.dims u.sig.dims :=
  Inference.forall₂_atMost_map_fixed.symm

theorem cast (h : t.AtMost u) (dtype dtype' : DType) : (t.cast dtype).AtMost (u.cast dtype') := by
  rw [iff_sig, sig_cast, sig_cast]
  exact iff_sig.mp h

/-- Results that keep the extents of an operand. -/
theorem of_sig {dtype dtype' : DType} (h : x.AtMost x') (hy : y.sig = ⟨dtype, x.sig.dims⟩)
    (hy' : y'.sig = ⟨dtype', x'.sig.dims⟩) : y.AtMost y' := by
  rw [iff_sig, hy, hy']
  exact iff_sig.mp h

end Tensor.AtMost

namespace Kernel

open Inference

variable {a a' b b' x x' y y' : Tensor} {dtype dtype' : DType} {f f' : Float → Float}

/-! ## Element by element -/

theorem atMost_map (hx : x.AtMost x') (h : map x dtype f = .ok y)
    (h' : map x' dtype' f' = .ok y') : y.AtMost y' :=
  hx.of_sig (sig_of_map h) (sig_of_map h')

theorem atMost_binary {g g' : Float → Float → Float} (ha : a.AtMost a') (hb : b.AtMost b')
    (h : binary a b dtype g = .ok y) (h' : binary a' b' dtype' g' = .ok y') : y.AtMost y' := by
  obtain ⟨-, hdims⟩ := sig_of_binary h
  obtain ⟨-, hdims'⟩ := sig_of_binary h'
  exact Tensor.AtMost.iff_sig.mpr (stable_atMost.broadcast_along (Tensor.AtMost.iff_sig.mp ha)
    (Tensor.AtMost.iff_sig.mp hb) hdims hdims')

theorem atMost_prelu (ha : a.AtMost a') (h : prelu a b = .ok y) (h' : prelu a' b' = .ok y') :
    y.AtMost y' :=
  ha.of_sig (sig_of_prelu h) (sig_of_prelu h')

/-! ## Along axes -/

theorem atMost_softmax {axis axis' : Nat} (hx : x.AtMost x') (h : softmax x axis dtype = .ok y)
    (h' : softmax x' axis' dtype' = .ok y') : y.AtMost y' :=
  hx.of_sig (sig_of_softmax h) (sig_of_softmax h')

theorem sig_of_cumsum {axis : Nat} (h : cumsum x axis dtype = .ok y) :
    y.sig = ⟨dtype, x.sig.dims⟩ := by
  unfold cumsum at h
  split at h
  · next hrank =>
    obtain ⟨-, rfl⟩ := build_eq_ok.mp h
    have hdims : x.dims = [] := List.length_eq_zero_iff.mp hrank
    simp [Tensor.sig, TensorSig.of, hdims]
  · split at h
    · cases h
    · obtain ⟨_, -, h⟩ := Outcome.bind_eq_ok.mp h
      obtain ⟨-, rfl⟩ := build_eq_ok.mp h
      rfl

theorem atMost_cumsum {axis axis' : Nat} (hx : x.AtMost x') (h : cumsum x axis dtype = .ok y)
    (h' : cumsum x' axis' dtype' = .ok y') : y.AtMost y' :=
  hx.of_sig (sig_of_cumsum h) (sig_of_cumsum h')

theorem atMost_reduce {axes : List Nat} {keep mean : Bool} (hx : x.AtMost x')
    (h : reduce x axes keep mean dtype = .ok y) (h' : reduce x' axes keep mean dtype' = .ok y') :
    y.AtMost y' := by
  rw [Tensor.AtMost.iff_sig, sig_of_reduce h, sig_of_reduce h']
  exact stable_atMost.reduce_along (Tensor.AtMost.iff_sig.mp hx) axes keep

/-! ## Movements -/

theorem atMost_permute {perm : List Nat} (hx : x.AtMost x') (h : permute x perm = .ok y)
    (h' : permute x' perm = .ok y') : y.AtMost y' := by
  obtain ⟨-, hdims⟩ := sig_of_permute h
  obtain ⟨-, hdims'⟩ := sig_of_permute h'
  exact Tensor.AtMost.iff_sig.mpr
    (stable_atMost.permute_along (Tensor.AtMost.iff_sig.mp hx) hdims hdims')

theorem atMost_pad {pre post : List Int} {value value' : Float} (hx : x.AtMost x')
    (hsmall : volume x'.dims < 2 ^ 63) (h : pad x pre post value = .ok y)
    (h' : pad x' pre post value' = .ok y') : y.AtMost y' := by
  obtain ⟨-, -, -, hdims⟩ := sig_of_pad h
  obtain ⟨-, -, -, hdims'⟩ := sig_of_pad h'
  exact Tensor.AtMost.iff_sig.mpr
    (stable_atMost.pad_along ⟨x'.dims, rfl, hsmall⟩ (Tensor.AtMost.iff_sig.mp hx) hdims hdims')

theorem dims_of_reshape {dims : List Nat} (h : reshape x dims = .ok y) : y.dims = dims := by
  have h := Outcome.mapError_eq_ok.mp h
  unfold Tensor.reshape at h
  split at h
  · obtain rfl := Except.ok.inj h
    rfl
  · cases h

theorem atMost_reshape {dims dims' : List Nat} (hle : List.Forall₂ (· ≤ ·) dims dims')
    (h : reshape x dims = .ok y) (h' : reshape x' dims' = .ok y') : y.AtMost y' := by
  unfold Tensor.AtMost
  rw [dims_of_reshape h, dims_of_reshape h']
  exact hle

/-- Where zeros do not copy, only the inferred extent depends on the operand. -/
theorem targetExtents_congr (dims dims' : List Nat) (whole target : List Int) (axis : Nat)
    (inferred : Bool) : targetExtents dims whole false axis inferred target =
      targetExtents dims' whole false axis inferred target := by
  induction target generalizing axis inferred with
  | nil => rfl
  | cons extent target ih =>
    have hzero : ¬ (extent = 0 ∧ false = true) := by simp
    unfold targetExtents
    rw [ih, ih, if_neg hzero, if_neg hzero]

/-- Larger operands leave more for the inferred extent. -/
theorem resolveShape_le {dims dims' out out' : List Nat} {target : List Int}
    (hle : List.Forall₂ (· ≤ ·) dims dims') (hsmall : volume dims' < 2 ^ 64)
    (h : resolveShape dims target false = .ok out)
    (h' : resolveShape dims' target false = .ok out') : List.Forall₂ (· ≤ ·) out out' := by
  obtain ⟨extents, hextents, h⟩ := Outcome.bind_eq_ok.mp h
  obtain ⟨extents', hextents', h'⟩ := Outcome.bind_eq_ok.mp h'
  -- both operands give the same entries, so the results differ in the inferred one at most
  rw [targetExtents_congr dims' dims, hextents] at hextents'
  obtain rfl := Except.ok.inj hextents'
  have hcount : word (elementCount dims) ≤ word (elementCount dims') := by
    rw [word_of_volume ((volume_le hle).trans_lt hsmall), word_of_volume hsmall,
      elementCount_eq_prod, elementCount_eq_prod]
    exact List.Forall₂.prod_le_prod' hle
  have hfill : ∀ {n n' : Nat}, n ≤ n' →
      List.Forall₂ (· ≤ ·) (extents.map (·.getD n)) (extents.map (·.getD n')) := by
    intro n n' hn
    rw [List.forall₂_map_left_iff, List.forall₂_map_right_iff]
    refine List.forall₂_same.mpr fun extent _ => ?_
    cases extent with
    | none => exact hn
    | some n => exact Nat.le_refl n
  dsimp only at h h'
  split at h
  · next hinferred =>
    rw [if_pos hinferred] at h'
    split at h
    · cases h
    · split at h'
      · cases h'
      · obtain rfl := Outcome.pure_eq_ok.mp h
        obtain rfl := Outcome.pure_eq_ok.mp h'
        exact hfill (Nat.div_le_div_right hcount)
  · next hgiven =>
    rw [if_neg hgiven] at h'
    split at h
    · cases h
    · split at h'
      · cases h'
      · obtain rfl := Outcome.pure_eq_ok.mp h
        obtain rfl := Outcome.pure_eq_ok.mp h'
        exact hfill (Nat.le_refl 1)

/-! ## Products -/

theorem extentFromEnd_le {dims dims' : List Nat} (hle : List.Forall₂ (· ≤ ·) dims dims')
    (k : Nat) : extentFromEnd dims k ≤ extentFromEnd dims' k := by
  have hone : Dimension.AtMost (.fixed 1) (.fixed 1) := stable_atMost.fixed 1
  have h := ((forall₂_iff_fromEnd hone).mp (forall₂_atMost_map_fixed.mpr hle)).2 k
  rw [fromEnd_map_fixed, fromEnd_map_fixed] at h
  obtain ⟨h⟩ := h
  exact h

theorem broadcastShape_le {lhs lhs' rhs rhs' dims dims' : List Nat}
    (hlhs : List.Forall₂ (· ≤ ·) lhs lhs') (hrhs : List.Forall₂ (· ≤ ·) rhs rhs')
    (h : broadcastShape lhs rhs = .ok dims) (h' : broadcastShape lhs' rhs' = .ok dims') :
    List.Forall₂ (· ≤ ·) dims dims' :=
  forall₂_atMost_map_fixed.mp (stable_atMost.broadcast_along (forall₂_atMost_map_fixed.mpr hlhs)
    (forall₂_atMost_map_fixed.mpr hrhs) (broadcast_of_broadcastShape h)
    (broadcast_of_broadcastShape h'))

/-- Rows, columns and batch axes of a product grow with the operands, vectors included. -/
theorem productShape_le {lhs lhs' rhs rhs' : List Nat} {shape shape' : ProductShape}
    (hlhs : List.Forall₂ (· ≤ ·) lhs lhs') (hrhs : List.Forall₂ (· ≤ ·) rhs rhs')
    (h : productShape lhs rhs = .ok shape) (h' : productShape lhs' rhs' = .ok shape') :
    List.Forall₂ (· ≤ ·) shape.batch shape'.batch ∧ shape.rows ≤ shape'.rows ∧
      shape.columns ≤ shape'.columns := by
  have hrow : List.Forall₂ (· ≤ ·) (if lhs.length = 1 then 1 :: lhs else lhs)
      (if lhs'.length = 1 then 1 :: lhs' else lhs') := by
    rw [← hlhs.length_eq]
    split
    · exact .cons (Nat.le_refl 1) hlhs
    · exact hlhs
  have hcolumn : List.Forall₂ (· ≤ ·) (if rhs.length = 1 then rhs ++ [1] else rhs)
      (if rhs'.length = 1 then rhs' ++ [1] else rhs') := by
    rw [← hrhs.length_eq]
    split
    · exact List.rel_append hrhs (.cons (Nat.le_refl 1) .nil)
    · exact hrhs
  unfold productShape at h h'
  obtain ⟨-, h⟩ := Outcome.guard_eq_ok.mp h
  obtain ⟨-, h'⟩ := Outcome.guard_eq_ok.mp h'
  obtain ⟨-, h⟩ := Outcome.guard_eq_ok.mp h
  obtain ⟨-, h'⟩ := Outcome.guard_eq_ok.mp h'
  obtain ⟨batch, hbatch, h⟩ := Outcome.bind_eq_ok.mp h
  obtain ⟨batch', hbatch', h'⟩ := Outcome.bind_eq_ok.mp h'
  obtain rfl := Outcome.pure_eq_ok.mp h
  obtain rfl := Outcome.pure_eq_ok.mp h'
  refine ⟨?_, extentFromEnd_le hrow 1, extentFromEnd_le hcolumn 0⟩
  refine broadcastShape_le ?_ ?_ hbatch hbatch'
  · unfold batchExtents
    rw [hrow.length_eq]
    exact List.forall₂_take _ hrow
  · unfold batchExtents
    rw [hcolumn.length_eq]
    exact List.forall₂_take _ hcolumn

theorem atMost_matmul (ha : a.AtMost a') (hb : b.AtMost b') (h : matmul a b = .ok y)
    (h' : matmul a' b' = .ok y') : y.AtMost y' := by
  obtain ⟨shape, hshape, h⟩ := Outcome.bind_eq_ok.mp h
  obtain ⟨shape', hshape', h'⟩ := Outcome.bind_eq_ok.mp h'
  obtain ⟨_, -, h⟩ := Outcome.bind_eq_ok.mp h
  obtain ⟨_, -, h'⟩ := Outcome.bind_eq_ok.mp h'
  obtain ⟨-, rfl⟩ := build_eq_ok.mp h
  obtain ⟨-, rfl⟩ := build_eq_ok.mp h'
  obtain ⟨hbatch, hrows, hcolumns⟩ := productShape_le ha hb hshape hshape'
  unfold Tensor.AtMost
  dsimp only
  rw [← ha.rank_eq, ← hb.rank_eq]
  refine List.rel_append (List.rel_append hbatch ?_) ?_
  · split
    · exact .nil
    · exact .cons hrows .nil
  · split
    · exact .nil
    · exact .cons hcolumns .nil

end Kernel

end HybridGraph
