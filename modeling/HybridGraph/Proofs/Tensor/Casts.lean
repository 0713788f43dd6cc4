import HybridGraph.Proofs.Kernel.Movements
/-!
# Casts there and back

A cast reads every element as a double and stores it under another element type.  A type that is
wide enough gives the double back, so only the way back is left, and it restores the elements:

    (∀ x ∈ t.doubles, wide.rounded x = x) → (t.cast wide).cast t.dtype = t.restored
                                                                           (cast_cast_eq_restored)

Bytes, integers of 32 bits and truth values come back from every wider type, and integers of 64 bits
from 32 bits if they are within the words of that width; whatever else is stored does not come back
(`cast_cast_eq_self_iff`, `cast_i32_cast_eq_self_iff`).
-/

namespace HybridGraph

open Number (twoPow)

namespace DType

variable {dtype wide : DType} {n : ℤ}

/-- A type that has room for all bytes, integers of 32 bits or truth values: a wider type of
integers, or doubles. -/
def Widens (dtype wide : DType) : Prop :=
  dtype ∈ [.i8, .i32, .bool] ∧ (Kernel.integerWidth dtype < Kernel.integerWidth wide ∨ wide = .f64)

instance (dtype wide : DType) : Decidable (dtype.Widens wide) := inferInstanceAs (Decidable (_ ∧ _))

theorem Widens.ne (h : dtype.Widens wide) : wide ≠ dtype := by
  rintro rfl
  rcases h with ⟨hdtype, hlt | rfl⟩
  · exact lt_irrefl _ hlt
  · simp at hdtype

/-- Integers within the words of an integer type are stored as they are, if doubles hold them. -/
theorem rounded_ofInt (hwide : wide.isInteger = true) (hexact : Number.Exact n)
    (hlow : -twoPow (8 * wide.byteSize - 1) ≤ n) (hhigh : n < twoPow (8 * wide.byteSize - 1)) :
    wide.rounded (Number.ofInt n) = Number.ofInt n := by
  have hword : Number.truncate (8 * wide.byteSize) (Number.ofInt n) = n := by
    rw [Number.truncate_ofInt_of_exact hexact, Number.clampWord_eq hlow hhigh]
  cases wide with
  | i8 => exact congrArg Number.ofInt ((toInt_ofInt_truncate (by decide)).trans hword)
  | i32 => exact congrArg Number.ofInt ((toInt_ofInt_truncate (by decide)).trans hword)
  | i64 => exact congrArg Number.ofInt ((toInt_ofInt_truncate_long _).trans hword)
  | _ => cases hwide

theorem word_bounds (hdtype : dtype ∈ [.i8, .i32, .bool]) (x : Float) :
    -twoPow (8 * dtype.byteSize - 1) ≤ dtype.word x ∧
      dtype.word x < twoPow (8 * dtype.byteSize - 1) := by
  fin_cases hdtype
  · exact truncate_bounds 8 x
  · exact truncate_bounds 32 x
  · show -(2 ^ 7 : ℤ) ≤ (if x == 0.0 then 0 else 1) ∧ (if x == 0.0 then 0 else 1) < (2 ^ 7 : ℤ)
    split <;> decide

theorem Widens.byteSize_le (h : dtype.Widens wide) : dtype.byteSize ≤ wide.byteSize := by
  revert h
  cases dtype <;> cases wide <;> decide

/-- What is stored in a type is stored in a wider one as it is. -/
theorem Widens.rounded_rounded (h : dtype.Widens wide) (x : Float) :
    wide.rounded (dtype.rounded x) = dtype.rounded x := by
  rcases h.2 with hlt | rfl
  · have hwide : wide.isInteger = true := by
      cases wide <;> first | rfl | cases hlt
    have hwords : twoPow (8 * dtype.byteSize - 1) ≤ twoPow (8 * wide.byteSize - 1) :=
      Nat.pow_le_pow_right (by decide) (by have := h.byteSize_le; omega)
    obtain ⟨hlow, hhigh⟩ := word_bounds h.1 x
    rw [rounded_eq_ofInt h.1]
    exact rounded_ofInt hwide (.of_le (natAbs_word_lt h.1 x).le) (by omega) (by omega)
  · rfl

end DType

namespace Tensor

variable {t : Tensor} {wide : DType}

theorem cast_of_ne (h : wide ≠ t.dtype) : t.cast wide = ⟨wide, t.dims, store t.doubles wide⟩ :=
  if_neg h

/-- A cast and the cast back store the elements twice. -/
theorem cast_cast (h : wide ≠ t.dtype) : (t.cast wide).cast t.dtype =
    ⟨t.dtype, t.dims, store (t.doubles.map wide.rounded) t.dtype⟩ := by
  rw [cast_of_ne h, cast_of_ne h.symm, doubles_store]

/-- Where the first cast changes nothing, the elements are restored. -/
theorem cast_cast_eq_restored (h : wide ≠ t.dtype) (hsame : ∀ x ∈ t.doubles, wide.rounded x = x) :
    (t.cast wide).cast t.dtype = t.restored := by
  rw [cast_cast h, Array.map_congr_left hsame, Array.map_id']
  rfl

theorem doubles_restored (t : Tensor) : t.restored.doubles = t.doubles.map t.dtype.rounded :=
  doubles_store

/-- Bytes, integers of 32 bits and truth values are restored to themselves. -/
theorem WellFormed.restored_eq_self (ht : t.WellFormed) (hdtype : t.dtype ∈ [.i8, .i32, .bool]) :
    t.restored = t := by
  refine ht.restored_eq_iff.mpr fun coords e he =>
    ⟨fun v hv => ?_, fun hhalf => by simp [hhalf] at hdtype⟩
  subst hv
  obtain ⟨dtype, dims, data⟩ := t
  have hstorage := ht.storage
  cases data with
  | i64 values => fin_cases hdtype <;> cases hstorage
  | _ =>
    obtain ⟨_, -, hother⟩ := Option.map_eq_some_iff.mp he
    cases hother

/-- A tensor of bytes, of integers of 32 bits or of truth values comes back from a wider type
exactly if its elements are within the range of its own. -/
theorem cast_cast_eq_self_iff (hcount : t.Counted) (h : t.dtype.Widens wide) :
    (t.cast wide).cast t.dtype = t ↔ t.WellFormed := by
  constructor
  · intro heq
    have hstored : (t.doubles.map wide.rounded).size = elementCount t.dims := by
      rw [Array.size_map, size_doubles, hcount]
    rw [← heq, cast_cast h.ne]
    exact wellFormed_store hstored
  · intro ht
    have hrestored := ht.restored_eq_self h.1
    rw [cast_cast_eq_restored h.ne fun x hx => ?_, hrestored]
    rw [← hrestored, doubles_restored] at hx
    obtain ⟨y, -, rfl⟩ := Array.mem_map.mp hx
    exact h.rounded_rounded y

/-- All elements are within the words of 32 bits. -/
def Narrow (t : Tensor) : Prop := ∀ v ∈ t.integers, -2 ^ 31 ≤ v.toInt ∧ v.toInt < 2 ^ 31

instance (t : Tensor) : Decidable t.Narrow :=
  decidable_of_iff (t.integers.toList.all fun v => -2 ^ 31 ≤ v.toInt ∧ v.toInt < 2 ^ 31) <| by
    simp only [List.all_eq_true, decide_eq_true_eq, Array.mem_toList_iff, Narrow]

/-- A tensor of integers of 64 bits comes back from 32 bits exactly if these are enough. -/
theorem cast_i32_cast_eq_self_iff (ht : t.WellFormed) (hdtype : t.dtype = .i64) :
    (t.cast .i32).cast .i64 = t ↔ t.Narrow := by
  have hne : DType.i32 ≠ t.dtype := by simp [hdtype]
  have hround : (t.cast .i32).cast .i64 = (t.cast .i32).cast t.dtype := by rw [hdtype]
  rw [hround]
  obtain ⟨dtype, dims, data⟩ := t
  obtain rfl : dtype = .i64 := hdtype
  obtain ⟨values, rfl⟩ : ∃ values, data = .i64 values := by
    have hstorage := ht.storage
    cases data <;> first | exact ⟨_, rfl⟩ | cases hstorage
  constructor
  · intro heq v hv
    rw [cast_cast hne] at heq
    have hdata := Elements.i64.inj (congrArg Tensor.data heq)
    rw [← show _ = (⟨.i64, dims, .i64 values⟩ : Tensor).integers from hdata] at hv
    obtain ⟨_, hx, rfl⟩ := Array.mem_map.mp hv
    obtain ⟨x, -, rfl⟩ := Array.mem_map.mp hx
    obtain ⟨hlow, hhigh⟩ := DType.truncate_bounds 32 x
    have hwidths : twoPow (32 - 1) = 2 ^ 31 ∧ twoPow (64 - 1) = 2 ^ 63 := ⟨rfl, rfl⟩
    have hword : Number.truncate 64 (DType.i32.rounded x) = Number.truncate 32 x := by
      rw [DType.rounded_eq_ofInt (by simp)]
      show Number.truncate 64 (Number.ofInt (Number.truncate 32 x)) = _
      rw [Number.truncate_ofInt_of_exact (.of_le (by omega)),
        Number.clampWord_eq (by omega) (by omega)]
    rw [DType.toInt_ofInt_truncate_long, hword]
    omega
  · intro hnarrow
    have hword (v : Int64) (hv : v ∈ values) : Number.Exact v.toInt := by
      obtain ⟨hlow, hhigh⟩ := hnarrow v hv
      exact .of_le (by omega)
    rw [cast_cast_eq_restored hne fun x hx => ?_, ht.restored_eq_iff]
    · refine fun coords e he => ⟨fun v hv => ?_, nofun⟩
      obtain ⟨v', hv', hsame⟩ := Option.map_eq_some_iff.mp he
      obtain rfl := Element.i64.inj (hsame.trans hv)
      exact .inl (hword v' (Array.mem_of_getElem? hv'))
    · obtain ⟨v, hv, rfl⟩ := Array.mem_map.mp hx
      obtain ⟨hlow, hhigh⟩ := hnarrow v hv
      exact DType.rounded_ofInt rfl (hword v hv) hlow hhigh

end Tensor

end HybridGraph
