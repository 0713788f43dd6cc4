import HybridGraph.Kernel.Movement
import HybridGraph.Kernel.Pointwise
import HybridGraph.Kernel.Product
import HybridGraph.Proofs.Outcome
import Mathlib.Data.List.GetD
/-!
# What kernels store

A kernel computes doubles and stores them.  The stored form has as many elements as there are
numbers and reads as the numbers rounded to the element type (`Tensor.doubles_store`), so a kernel
that works element by element on well-counted operands of equal extents cannot fail:

    t.Counted → map t dtype f = .ok ⟨dtype, t.dims, store (t.doubles.map f) dtype⟩     (map_eq_ok)
    …         → binary a b dtype f = .ok ⟨dtype, a.dims, store (zipWith f …) dtype⟩ (binary_eq_ok)
-/

namespace HybridGraph

/-! ## Rounding -/

/-- A number after it has been stored as an element of the type and read back. -/
def DType.rounded (dtype : DType) (x : Float) : Float :=
  match dtype with
  | .f32 => Number.widen (Number.narrow x)
  | .f16 => Number.widen (Number.roundToHalf (Number.narrow x))
  | .f64 => x
  | .i8 => Number.ofInt (Int32.ofInt (Number.truncate 8 x)).toInt
  | .i32 => Number.ofInt (Int32.ofInt (Number.truncate 32 x)).toInt
  | .i64 => Number.ofInt (Int64.ofInt (Number.truncate 64 x)).toInt
  | .bool => Number.ofInt (if x == 0.0 then 0 else 1 : UInt8).toNat

namespace Tensor

variable {values : Array Float} {dtype : DType} {dims : List Nat} {t : Tensor}

/-- There are as many elements as the extents ask for. -/
def Counted (t : Tensor) : Prop := t.size = elementCount t.dims

theorem fits_store : (store values dtype).fits dtype = true := by
  cases dtype <;> rfl

theorem size_store : (store values dtype).size = values.size := by
  cases dtype <;> simp [store, Elements.size]

theorem size_doubles (t : Tensor) : t.doubles.size = t.size := by
  obtain ⟨dtype, dims, data⟩ := t
  cases data <;> simp [doubles, size, Elements.size]

/-- Stored numbers read as themselves, rounded. -/
theorem doubles_store :
    (⟨dtype, dims, store values dtype⟩ : Tensor).doubles = values.map dtype.rounded := by
  cases dtype with
  | f64 => exact (Array.map_id _).symm
  | _ =>
    simp only [doubles, store, Array.map_map]
    rfl

theorem counted_store (h : values.size = elementCount dims) :
    (⟨dtype, dims, store values dtype⟩ : Tensor).Counted := size_store.trans h

theorem ofDoubles_eq_ok {made : Tensor} : ofDoubles dtype dims values = .ok made ↔
    values.size = elementCount dims ∧ ⟨dtype, dims, store values dtype⟩ = made := by
  unfold ofDoubles make
  rw [fits_store, size_store]
  by_cases h : elementCount dims = values.size
  · simp [h]
  · simp [h, Ne.symm h]

end Tensor

/-! ## Kernels -/

namespace Kernel

open Tensor

variable {values : Array Float} {dtype : DType} {dims : List Nat} {t u : Tensor}

theorem build_eq_ok : build dtype dims values = .ok u ↔
    values.size = elementCount dims ∧ ⟨dtype, dims, store values dtype⟩ = u := by
  unfold build
  rw [Outcome.mapError_eq_ok, ofDoubles_eq_ok]

theorem map_eq_ok {f : Float → Float} : map t dtype f = .ok u ↔
    t.Counted ∧ ⟨dtype, t.dims, store (t.doubles.map f) dtype⟩ = u := by
  unfold map Counted
  rw [build_eq_ok, Array.size_map, size_doubles]

/-- Equal shapes broadcast to themselves. -/
theorem broadcastShape_self (dims : List Nat) : broadcastShape dims dims = .ok dims := by
  unfold broadcastShape
  simp only [Nat.max_self, if_true]
  have hextent : (List.range dims.length).map
      (fun axis => extentFromEnd dims (dims.length - 1 - axis)) = dims := by
    refine List.ext_getElem (by simp) fun axis h _ => ?_
    have hlt : axis < dims.length := by simpa using h
    have hback : dims.length - 1 - (dims.length - 1 - axis) = axis := by omega
    have hbound : dims.length - 1 - axis < dims.length := by omega
    simp [extentFromEnd, hback, hbound, hlt]
  refine Outcome.mapM_eq_ok.mpr ?_
  conv_rhs => rw [← hextent]
  rw [List.forall₂_map_right_iff]
  exact List.forall₂_same.mpr fun _ _ => rfl

theorem broadcastValues_self {α : Type} (values : Array α) (dims : List Nat) :
    broadcastValues values dims dims = .ok values := if_pos rfl

/-- Operands of equal extents are combined element by element. -/
theorem binary_eq_ok {a b : Tensor} (ha : a.Counted) (hb : b.Counted) (hdims : b.dims = a.dims)
    {f : Float → Float → Float} : binary a b dtype f =
      .ok ⟨dtype, a.dims, store (Array.zipWith f a.doubles b.doubles) dtype⟩ := by
  unfold binary
  rw [hdims, broadcastShape_self]
  show (broadcastValues a.doubles a.dims a.dims >>= fun _ =>
    broadcastValues b.doubles a.dims a.dims >>= fun _ => _) = _
  rw [broadcastValues_self, broadcastValues_self]
  refine build_eq_ok.mpr ⟨?_, rfl⟩
  unfold Counted at ha hb
  rw [Array.size_zipWith, size_doubles, size_doubles, ha, hb, hdims, Nat.min_self]

/-- Permuting keeps the element type. -/
theorem dtype_of_permute {perm : List Nat} (h : permute t perm = .ok u) : u.dtype = t.dtype := by
  unfold permute at h
  split at h
  · cases h
  · split at h
    · cases h
    · obtain ⟨_, -, hbuild⟩ := Outcome.bind_eq_ok.mp h
      obtain ⟨-, rfl⟩ := build_eq_ok.mp hbuild
      rfl

/-- A product has the wider element type. -/
theorem dtype_of_matmul {a b : Tensor} (h : matmul a b = .ok u) :
    u.dtype = promote a.dtype b.dtype := by
  obtain ⟨_, -, h⟩ := Outcome.bind_eq_ok.mp h
  obtain ⟨_, -, hbuild⟩ := Outcome.bind_eq_ok.mp h
  obtain ⟨-, rfl⟩ := build_eq_ok.mp hbuild
  rfl

end Kernel

end HybridGraph
