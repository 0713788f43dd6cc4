import HybridGraph.Number.Binary
import Mathlib
/-!
# The order of doubles

Doubles other than not-a-number are compared by a rank: the class (negative infinity, negative
numbers, zeros, positive numbers, infinity), then exponent and mantissa.  So the order is transitive
and total on them, and the larger of two is their supremum:

    x ≤ y ↔ x.isNaN = false ∧ y.isNaN = false ∧ rank x ≤ rank y
    z ≤ xs.foldl larger x ↔ z ≤ x ∨ ∃ y ∈ xs, z ≤ y

Infinity is the top of the order.  A difference is infinite or no number as soon as one operand is,
and a positive multiple of infinity is infinity.
-/

namespace HybridGraph.Number

open Float.Model (UnpackedFloat)
open Float.Model.UnpackedFloat (Sign)

variable {x y z : Float}

/-! ## Ranks -/

/-- The place of an unpacked double in the order. -/
def unpackedRank : UnpackedFloat → ℤ ×ₗ ℤ ×ₗ ℤ
  | .infinity .negative => toLex (-2, toLex (0, 0))
  | .finite .negative m e _ => toLex (-1, toLex (-e, -m))
  | .notANumber | .zero _ => toLex (0, toLex (0, 0))
  | .finite .positive m e _ => toLex (1, toLex (e, m))
  | .infinity .positive => toLex (2, toLex (0, 0))

/-- The place of a double in the order. -/
def rank (x : Float) : ℤ ×ₗ ℤ ×ₗ ℤ := unpackedRank x.toModel.unpack

theorem rank_zero : rank 0.0 = toLex (0, toLex (0, 0)) := rfl

theorem rank_infinity : rank infinity = toLex (2, toLex (0, 0)) := rfl

theorem compare_natCast (m m' : ℕ) : compare (m : ℤ) m' = compare m m' := by
  simp [Int.compare_eq_ite_lt, Nat.compare_eq_ite_lt]

theorem compare_neg_neg (a b : ℤ) : compare (-a) (-b) = (compare a b).swap := by
  rw [Int.compare_swap]
  simp [Int.compare_eq_ite_lt]

/-- Unpacked numbers are compared by rank. -/
theorem unpacked_compare {a b : UnpackedFloat} (ha : a.isNaN = false) (hb : b.isNaN = false) :
    a.compare b = some (compare (unpackedRank a) (unpackedRank b)) := by
  -- the classes settle all cases but two numbers of the same sign
  rcases a with (_ | _) | _ | _ | ⟨_ | _, m, e, _⟩ <;>
    rcases b with (_ | _) | _ | _ | ⟨_ | _, m', e', _⟩ <;>
    first | rfl | cases ha; done | cases hb; done | skip
  · simp [UnpackedFloat.compare, unpackedRank, Prod.Lex.compare_def, compareLex, compareOn,
      compare_natCast, compare_neg_neg, Ordering.swap_then]
  · simp [UnpackedFloat.compare, unpackedRank, Prod.Lex.compare_def, compareLex, compareOn,
      compare_natCast]

theorem unpacked_compare_eq_some {a b : UnpackedFloat} {o : Ordering} :
    a.compare b = some o ↔
      a.isNaN = false ∧ b.isNaN = false ∧ compare (unpackedRank a) (unpackedRank b) = o := by
  constructor
  · intro h
    have ha : a.isNaN = false := by
      cases a <;> first | rfl | cases h
    have hb : b.isNaN = false := by
      cases b <;> first | rfl | (rcases a with (_ | _) | _ | _ | _ <;> cases h)
    rw [unpacked_compare ha hb, Option.some_inj] at h
    exact ⟨ha, hb, h⟩
  · rintro ⟨ha, hb, rfl⟩
    exact unpacked_compare ha hb

theorem le_iff : x ≤ y ↔ x.isNaN = false ∧ y.isNaN = false ∧ rank x ≤ rank y := by
  have hle : x ≤ y ↔ ∃ o, x.toModel.unpack.compare y.toModel.unpack = some o ∧ o.isLE = true :=
    decide_eq_true_iff.trans (Option.any_eq_true Ordering.isLE _)
  simp only [hle, unpacked_compare_eq_some, Ordering.isLE_iff_ne_gt]
  constructor
  · rintro ⟨o, ⟨hx, hy, rfl⟩, ho⟩
    exact ⟨hx, hy, compare_le_iff_le.mp ho⟩
  · rintro ⟨hx, hy, h⟩
    exact ⟨_, ⟨hx, hy, rfl⟩, compare_le_iff_le.mpr h⟩

theorem lt_iff : x < y ↔ x.isNaN = false ∧ y.isNaN = false ∧ rank x < rank y := by
  have hlt : x < y ↔ x.toModel.unpack.compare y.toModel.unpack = some .lt :=
    decide_eq_true_iff.trans beq_iff_eq
  rw [hlt, unpacked_compare_eq_some, compare_lt_iff_lt]
  rfl

theorem beq_iff : (x == y) = true ↔ x.isNaN = false ∧ y.isNaN = false ∧ rank x = rank y := by
  have hbeq : (x == y) = (x.toModel.unpack.compare y.toModel.unpack == some .eq) := rfl
  rw [hbeq, beq_iff_eq, unpacked_compare_eq_some, compare_eq_iff_eq]
  rfl

protected theorem le_trans (h : x ≤ y) (h' : y ≤ z) : x ≤ z := by
  obtain ⟨hx, -, hxy⟩ := le_iff.mp h
  obtain ⟨-, hz, hyz⟩ := le_iff.mp h'
  exact le_iff.mpr ⟨hx, hz, hxy.trans hyz⟩

protected theorem le_of_lt (h : x < y) : x ≤ y := by
  obtain ⟨hx, hy, hlt⟩ := lt_iff.mp h
  exact le_iff.mpr ⟨hx, hy, hlt.le⟩

protected theorem le_of_not_lt (hx : x.isNaN = false) (hy : y.isNaN = false) (h : ¬ x < y) :
    y ≤ x :=
  le_iff.mpr ⟨hy, hx, le_of_not_gt fun hlt => h (lt_iff.mpr ⟨hx, hy, hlt⟩)⟩

theorem not_le_of_isNaN (hy : y.isNaN = true) : ¬ x ≤ y := by
  intro h
  rw [(le_iff.mp h).2.1] at hy
  cases hy

/-! ## The larger of two -/

theorem isNaN_larger (hx : x.isNaN = false) : (larger x y).isNaN = false := by
  unfold larger
  rw [if_neg (Bool.eq_false_iff.mp hx)]
  by_cases hy : y.isNaN = true
  · rwa [if_pos hy]
  · rw [if_neg hy]
    split
    · exact Bool.eq_false_iff.mpr hy
    · exact hx

/-- What bounds the larger of two numbers bounds both. -/
theorem larger_le_iff (hx : x.isNaN = false) (hy : y.isNaN = false) :
    larger x y ≤ z ↔ x ≤ z ∧ y ≤ z := by
  unfold larger
  rw [if_neg (Bool.eq_false_iff.mp hx), if_neg (Bool.eq_false_iff.mp hy)]
  by_cases h : x < y
  · rw [if_pos h, iff_and_self]
    exact Number.le_trans (Number.le_of_lt h)
  · rw [if_neg h, iff_self_and]
    exact Number.le_trans (Number.le_of_not_lt hx hy h)

/-- What lies below the larger of two lies below one of them. -/
theorem le_larger_iff : z ≤ larger x y ↔ z ≤ x ∨ z ≤ y := by
  unfold larger
  by_cases hx : x.isNaN = true
  · rw [if_pos hx, or_iff_right (not_le_of_isNaN hx)]
  by_cases hy : y.isNaN = true
  · rw [if_neg hx, if_pos hy, or_iff_left (not_le_of_isNaN hy)]
  rw [if_neg hx, if_neg hy]
  rw [Bool.not_eq_true] at hx hy
  by_cases h : x < y
  · rw [if_pos h]
    exact (or_iff_right_of_imp fun hz => Number.le_trans hz (Number.le_of_lt h)).symm
  · rw [if_neg h]
    exact (or_iff_left_of_imp fun hz => Number.le_trans hz (Number.le_of_not_lt hx hy h)).symm

theorem foldl_larger_le_iff (hx : x.isNaN = false) {ys : List Float}
    (hys : ∀ y ∈ ys, y.isNaN = false) :
    ys.foldl larger x ≤ z ↔ x ≤ z ∧ ∀ y ∈ ys, y ≤ z := by
  induction ys generalizing x with
  | nil => simp
  | cons y ys ih =>
    rw [List.foldl_cons, ih (isNaN_larger hx) fun y' hy' => hys y' (List.mem_cons_of_mem y hy'),
      larger_le_iff hx (hys y List.mem_cons_self), List.forall_mem_cons, and_assoc]

theorem le_foldl_larger_iff {ys : List Float} :
    z ≤ ys.foldl larger x ↔ z ≤ x ∨ ∃ y ∈ ys, z ≤ y := by
  induction ys generalizing x with
  | nil => simp
  | cons y ys ih => simp [ih, le_larger_iff, or_assoc]

/-! ## Infinity -/

theorem isNaN_eq : x.isNaN = x.toModel.unpack.isNaN := rfl

theorem isInf_eq : x.isInf = x.toModel.unpack.isInf := rfl

theorem isFinite_eq : x.isFinite = x.toModel.unpack.isFinite := rfl

theorem infinity_le_iff : infinity ≤ x ↔ x.toModel.unpack = .infinity .positive := by
  have hnum : infinity.isNaN = false := rfl
  rw [le_iff, hnum, isNaN_eq (x := x), rank_infinity, rank]
  rcases x.toModel.unpack with (_ | _) | _ | _ | ⟨_ | _, m, e, _⟩ <;>
    simp [unpackedRank, UnpackedFloat.isNaN, Prod.Lex.toLex_le_toLex]

/-- Infinity is above all numbers. -/
theorem le_of_infinity_le (hx : x.isNaN = false) (h : infinity ≤ z) : x ≤ z := by
  refine Number.le_trans (le_iff.mpr ⟨hx, rfl, ?_⟩) h
  rw [rank_infinity, rank]
  rcases x.toModel.unpack with (_ | _) | _ | _ | ⟨_ | _, m, e, _⟩ <;>
    simp [unpackedRank, Prod.Lex.toLex_le_toLex]

/-- A number from zero on is finite or infinity. -/
theorem isFinite_iff_of_zero_le (hx : 0.0 ≤ x) : x.isFinite = true ↔ ¬ infinity ≤ x := by
  obtain ⟨-, hnum, hle⟩ := le_iff.mp hx
  rw [isNaN_eq] at hnum
  rw [rank_zero, rank] at hle
  rw [infinity_le_iff, isFinite_eq]
  rcases hu : x.toModel.unpack with (_ | _) | _ | _ | ⟨_ | _, m, e, _⟩ <;>
    simp [hu, unpackedRank, Prod.Lex.toLex_le_toLex, UnpackedFloat.isNaN,
      UnpackedFloat.isFinite] at hnum hle ⊢

theorem not_infinity_le_zero : ¬ infinity ≤ 0.0 :=
  (isFinite_iff_of_zero_le (le_iff.mpr ⟨rfl, rfl, le_rfl⟩)).mp rfl

/-! ## Arithmetic with infinity -/

theorem unpack_pack_infinity (s : Sign) :
    (Float.Model.pack (.infinity s)).unpack = .infinity s := by
  cases s <;> rfl

theorem unpack_pack_notANumber : (Float.Model.pack .notANumber).unpack = .notANumber := rfl

theorem unpack_abs : x.abs.toModel.unpack = (Float.Model.pack x.toModel.unpack.abs).unpack := rfl

theorem unpack_sub : (x - y).toModel.unpack =
    (Float.Model.pack (.sub .binary64 x.toModel.unpack y.toModel.unpack)).unpack := rfl

theorem unpack_mul : (x * y).toModel.unpack =
    (Float.Model.pack (.mul .binary64 x.toModel.unpack y.toModel.unpack)).unpack := rfl

theorem isNaN_abs (h : x.isNaN = true) : x.abs.isNaN = true := by
  rw [isNaN_eq] at h ⊢
  rw [unpack_abs]
  cases hu : x.toModel.unpack with
  | notANumber => rfl
  | _ => simp [hu, UnpackedFloat.isNaN] at h

theorem infinity_le_abs (h : x.isInf = true) : infinity ≤ x.abs := by
  rw [isInf_eq] at h
  rw [infinity_le_iff, unpack_abs]
  cases hu : x.toModel.unpack with
  | infinity s => exact unpack_pack_infinity .positive
  | _ => simp [hu, UnpackedFloat.isInf] at h

theorem unpacked_sub_of_isFinite_eq_false {a b : UnpackedFloat}
    (h : a.isFinite = false ∨ b.isFinite = false) :
    UnpackedFloat.sub .binary64 a b = .notANumber ∨
      ∃ s, UnpackedFloat.sub .binary64 a b = .infinity s := by
  rcases a with s | _ | s | ⟨s, m, e, _⟩ <;> rcases b with s' | _ | s' | ⟨s', m', e', _⟩
  case infinity.infinity =>
    by_cases hs : (s == -s') = true
    · exact .inr ⟨s, if_pos hs⟩
    · exact .inl (if_neg hs)
  all_goals simp [UnpackedFloat.isFinite, UnpackedFloat.sub] at h ⊢

/-- A difference with an operand that is not finite is not finite. -/
theorem isNaN_or_isInf_sub (h : x.isFinite = false ∨ y.isFinite = false) :
    (x - y).isNaN = true ∨ (x - y).isInf = true := by
  rw [isNaN_eq, isInf_eq, unpack_sub]
  rcases unpacked_sub_of_isFinite_eq_false h with heq | ⟨s, heq⟩
  · rw [heq, unpack_pack_notANumber]
    exact .inl rfl
  · rw [heq, unpack_pack_infinity]
    exact .inr rfl

/-- A positive multiple of infinity is infinity. -/
theorem infinity_le_mul (hx : 0.0 < x) (hy : infinity ≤ y) : infinity ≤ x * y := by
  obtain ⟨-, hnum, hlt⟩ := lt_iff.mp hx
  rw [isNaN_eq] at hnum
  rw [rank_zero, rank] at hlt
  rw [infinity_le_iff] at hy ⊢
  rw [unpack_mul, hy]
  rcases hu : x.toModel.unpack with (_ | _) | _ | _ | ⟨_ | _, m, e, _⟩
  case infinity.positive => exact unpack_pack_infinity .positive
  case finite.positive => exact unpack_pack_infinity .positive
  all_goals simp [hu, unpackedRank, Prod.Lex.toLex_lt_toLex, UnpackedFloat.isNaN] at hnum hlt

end HybridGraph.Number
