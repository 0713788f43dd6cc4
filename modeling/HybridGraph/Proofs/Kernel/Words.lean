import HybridGraph.Proofs.Kernel.Stored
import HybridGraph.Proofs.Number.Integers
/-!
# Numbers stored as words

A byte, an integer of 32 bits and a truth value store a number as an integer, its word.  Storing a
number twice stores it once, equal numbers have equal words, and words are ordered as the numbers
are, so the larger of two numbers may be taken before or after storing:

    dtype.word (dtype.rounded x) = dtype.word x                                     (word_rounded)
    dtype.word (larger x y) = max (dtype.word x) (dtype.word y)                      (word_larger)

Not-a-number has no place in the order, and among truth values a negative number has none either.
-/

namespace HybridGraph

open Number (value)

namespace DType

variable {dtype : DType} {x x' y z : Float}

/-- The integer that an element type of integers of at most 32 bits stores for a number. -/
def word (dtype : DType) (x : Float) : ℤ :=
  match dtype with
  | .i8 => Number.truncate 8 x
  | .i32 => Number.truncate 32 x
  | .bool => if x == 0.0 then 0 else 1
  | _ => 0

/-- A number that an element type stores as it is. -/
def Holds (dtype : DType) (x : Float) : Prop := (dtype.rounded x == x) = true

instance (dtype : DType) (x : Float) : Decidable (dtype.Holds x) :=
  inferInstanceAs (Decidable (_ = true))

/-- A number that an element type keeps in order with others: truth values do so from zero on. -/
structure Orders (dtype : DType) (x : Float) : Prop where
  number : x.isNaN = false
  truth : dtype = .bool → 0.0 ≤ x

theorem Holds.value_eq (h : dtype.Holds x) : value (dtype.rounded x) = value x :=
  Number.value_eq_of_beq h

example : DType.i8.Holds 100.0 ∧ ¬ DType.i8.Holds 200.0 := by decide

theorem word_eq_of_value (h : value x = value y) : dtype.word x = dtype.word y := by
  cases dtype with
  | i8 => exact Number.truncate_eq_of_value h
  | i32 => exact Number.truncate_eq_of_value h
  | bool =>
    have hzero : (x == 0.0) = (y == 0.0) := by
      show (x.toModel.unpack.compare _ == _) = (y.toModel.unpack.compare _ == _)
      rcases Number.unsigned_eq_iff.mp h with h | ⟨s, s', hx, hy⟩
      · rw [h]
      · rw [hx, hy]
        rfl
    unfold word
    rw [hzero]
  | _ => rfl

/-- From zero on, larger numbers are not less true. -/
theorem word_bool_mono (hx : 0.0 ≤ x) (h : x ≤ y) : DType.bool.word x ≤ DType.bool.word y := by
  show (if x == 0.0 then 0 else 1 : ℤ) ≤ if y == 0.0 then 0 else 1
  by_cases hy : (y == 0.0) = true
  · obtain ⟨-, hnum, hle⟩ := Number.le_iff.mp h
    obtain ⟨hnum', -, hrank⟩ := Number.beq_iff.mp hy
    obtain ⟨hzero, hxnum, hle'⟩ := Number.le_iff.mp hx
    have hsame : (x == 0.0) = true :=
      Number.beq_iff.mpr ⟨hxnum, hzero, le_antisymm (hrank ▸ hle) hle'⟩
    rw [if_pos hy, if_pos hsame]
  · rw [if_neg hy]
    split <;> decide

theorem truncate_bounds (bits : ℕ) (x : Float) :
    -Number.twoPow (bits - 1) ≤ Number.truncate bits x ∧
      Number.truncate bits x < Number.twoPow (bits - 1) := by
  rw [Number.truncate_eq]
  exact ⟨Number.low_le_unpackedTruncate _,
    Int.lt_of_le_sub_one (Number.unpackedTruncate_le_high _)⟩

/-- A word of at most 32 bits is stored and read as it is. -/
theorem toInt_ofInt_truncate {bits : ℕ} (h : bits ≤ 32) :
    (Int32.ofInt (Number.truncate bits x)).toInt = Number.truncate bits x := by
  obtain ⟨hlow, hhigh⟩ := truncate_bounds bits x
  have hwidth : Number.twoPow (bits - 1) ≤ 2 ^ 31 := Nat.pow_le_pow_right (by omega) (by omega)
  exact Int32.toInt_ofInt_of_le (by omega) (by omega)

section

variable (hdtype : dtype ∈ [DType.i8, .i32, .bool])

include hdtype

/-- What is stored is read as the integer. -/
theorem rounded_eq_ofInt (x : Float) : dtype.rounded x = Number.ofInt (dtype.word x) := by
  fin_cases hdtype
  · exact congrArg Number.ofInt (toInt_ofInt_truncate (by decide))
  · exact congrArg Number.ofInt (toInt_ofInt_truncate (by decide))
  · unfold rounded word
    dsimp only
    split <;> rfl

theorem word_rounded (x : Float) : dtype.word (dtype.rounded x) = dtype.word x := by
  rw [rounded_eq_ofInt hdtype]
  fin_cases hdtype
  · exact Number.truncate_ofInt (by decide) (truncate_bounds _ x).1 (truncate_bounds _ x).2
  · exact Number.truncate_ofInt (by decide) (truncate_bounds _ x).1 (truncate_bounds _ x).2
  · unfold word
    dsimp only
    split <;> rfl

theorem rounded_eq_of_value (h : value x = value y) : dtype.rounded x = dtype.rounded y := by
  rw [rounded_eq_ofInt hdtype, rounded_eq_ofInt hdtype, word_eq_of_value h]

theorem natAbs_word_lt (x : Float) : (dtype.word x).natAbs < 2 ^ 53 := by
  fin_cases hdtype
  · have hbounds := truncate_bounds 8 x
    have hwidth : Number.twoPow (8 - 1) = 2 ^ 7 := rfl
    show (Number.truncate 8 x).natAbs < _
    omega
  · have hbounds := truncate_bounds 32 x
    have hwidth : Number.twoPow (32 - 1) = 2 ^ 31 := rfl
    show (Number.truncate 32 x).natAbs < _
    omega
  · show (if x == 0.0 then 0 else 1 : ℤ).natAbs < _
    split <;> decide

theorem orders_rounded (x : Float) : dtype.Orders (dtype.rounded x) := by
  rw [rounded_eq_ofInt hdtype]
  refine ⟨Number.isNaN_ofInt (natAbs_word_lt hdtype x), ?_⟩
  rintro rfl
  show 0.0 ≤ Number.ofInt (if x == 0.0 then 0 else 1)
  split <;> decide

theorem word_mono (hx : dtype.Orders x) (h : x ≤ y) : dtype.word x ≤ dtype.word y := by
  fin_cases hdtype
  · exact Number.truncate_mono h
  · exact Number.truncate_mono h
  · exact word_bool_mono (hx.truth rfl) h

theorem word_larger (hx : dtype.Orders x) (hy : dtype.Orders y) :
    dtype.word (Number.larger x y) = max (dtype.word x) (dtype.word y) := by
  unfold Number.larger
  rw [if_neg (Bool.eq_false_iff.mp hx.number), if_neg (Bool.eq_false_iff.mp hy.number)]
  split
  · next h => exact (max_eq_right (word_mono hdtype hx (Number.le_of_lt h))).symm
  · next h =>
    exact (max_eq_left (word_mono hdtype hy (Number.le_of_not_lt hx.number hy.number h))).symm

theorem word_smaller (hx : dtype.Orders x) (hy : dtype.Orders y) :
    dtype.word (Number.smaller x y) = min (dtype.word x) (dtype.word y) := by
  unfold Number.smaller
  rw [if_neg (Bool.eq_false_iff.mp hx.number), if_neg (Bool.eq_false_iff.mp hy.number)]
  split
  · next h => exact (min_eq_right (word_mono hdtype hy (Number.le_of_lt h))).symm
  · next h =>
    exact (min_eq_left (word_mono hdtype hx (Number.le_of_not_lt hy.number hx.number h))).symm

/-- Storing a bound first makes no difference. -/
theorem word_larger_rounded (hx : dtype.Orders x) (hy : dtype.Orders y) :
    dtype.word (Number.larger x (dtype.rounded y)) = dtype.word (Number.larger x y) := by
  rw [word_larger hdtype hx (orders_rounded hdtype y), word_larger hdtype hx hy,
    word_rounded hdtype]

theorem word_smaller_rounded (hx : dtype.Orders x) (hy : dtype.Orders y) :
    dtype.word (Number.smaller x (dtype.rounded y)) = dtype.word (Number.smaller x y) := by
  rw [word_smaller hdtype hx (orders_rounded hdtype y), word_smaller hdtype hx hy,
    word_rounded hdtype]

end

theorem orders_larger (hx : dtype.Orders x) (hy : dtype.Orders y) :
    dtype.Orders (Number.larger x y) := by
  unfold Number.larger
  split
  · exact hy
  · split
    · exact hx
    · split
      · exact hy
      · exact hx

end DType

/-! ## Well-formed tensors -/

namespace Tensor

variable {dtype : DType} {dims : List ℕ} {values : Array Float} {t : Tensor}

/-- Whatever is stored lies in the range of its type. -/
theorem inRange_store (values : Array Float) (dtype : DType) :
    InRange dtype (store values dtype) := by
  cases dtype with
  | i8 =>
    rintro - v hv
    obtain ⟨x, -, rfl⟩ := Array.mem_map.mp hv
    rw [DType.toInt_ofInt_truncate (by omega)]
    obtain ⟨hlow, hhigh⟩ := DType.truncate_bounds 8 x
    exact ⟨hlow, Int.le_of_lt_add_one hhigh⟩
  | i32 => rintro ⟨⟩
  | bool =>
    intro v hv
    obtain ⟨x, -, rfl⟩ := Array.mem_map.mp hv
    split
    · exact .inl rfl
    · exact .inr rfl
  | _ => trivial

theorem wellFormed_store (h : values.size = elementCount dims) :
    WellFormed ⟨dtype, dims, store values dtype⟩ :=
  ⟨fits_store, counted_store h, inRange_store values dtype⟩

namespace WellFormed

theorem size_doubles (h : t.WellFormed) : t.doubles.size = elementCount t.dims :=
  (Tensor.size_doubles t).trans h.count

/-- Conversions keep well-formed tensors. -/
theorem cast (h : t.WellFormed) (dtype : DType) : (t.cast dtype).WellFormed := by
  unfold Tensor.cast
  split
  · exact h
  · exact wellFormed_store h.size_doubles

/-- The same elements under other extents are well-formed if there are as many. -/
theorem of_reshape {u : Tensor} (h : t.WellFormed) (hu : t.reshape dims = .ok u) :
    u.WellFormed := by
  unfold Tensor.reshape at hu
  split at hu
  · next hcount =>
    obtain rfl := Except.ok.inj hu
    exact ⟨h.storage, hcount.symm, h.range⟩
  · cases hu

end WellFormed

end Tensor

end HybridGraph
