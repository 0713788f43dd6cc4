import HybridGraph.Proofs.Number.Packed
/-!
# Laws of arithmetic on doubles

Sums, products and differences of doubles work on unpacked operands and round once, so laws that
hold of the unpacked operations hold of doubles.  The sign of a zero is all that tells two equal
numbers apart; `value` forgets it, and arithmetic goes by values:

    x == y → value x = value y                                                 (value_eq_of_beq)
    value (x + 1.0 * c * y) = value (x + y * c)                               (value_scaled_sum)
    value (x + -1.0 * c * y) = value (x - y * c)                       (value_scaled_difference)
-/

namespace HybridGraph.Number

open Float.Model (UnpackedFloat)
open Float.Model.UnpackedFloat

/-! ## Laws of arithmetic -/

variable {a a' b b' : UnpackedFloat} {x x' y y' z : Float}

theorem sign_mul_comm (s t : Sign) : s * t = t * s := by cases s <;> cases t <;> rfl

theorem sign_neg_mul (s t : Sign) : -s * t = -(s * t) := by cases s <;> cases t <;> rfl

theorem unpacked_mul_comm : UnpackedFloat.mul .binary64 a b = .mul .binary64 b a := by
  cases a <;> cases b <;> simp only [UnpackedFloat.mul, sign_mul_comm, Nat.mul_comm, Int.add_comm]

theorem round_neg (s : Sign) (m : ℕ) (e : ℤ) (accuracy : Accuracy) :
    roundWithAccuracy .binary64 (-s) m e accuracy =
      (roundWithAccuracy .binary64 s m e accuracy).neg := by
  unfold roundWithAccuracy
  dsimp only
  split <;> rfl

theorem unpacked_neg_mul : UnpackedFloat.mul .binary64 a.neg b =
    (UnpackedFloat.mul .binary64 a b).neg := by
  cases a <;> cases b <;>
    simp only [UnpackedFloat.mul, UnpackedFloat.neg, sign_neg_mul, round_neg]

theorem apply_neg (s : Sign) (n : ℤ) : (-s).apply n = -s.apply n := by
  cases s
  · exact (Int.neg_neg n).symm
  · rfl

/-- A difference is a sum with the negated operand. -/
theorem unpacked_sub : UnpackedFloat.sub .binary64 a b = .add .binary64 a b.neg := by
  rcases a with _ | _ | _ | ⟨s, m, e, _⟩ <;> rcases b with _ | _ | _ | ⟨t, n, f, _⟩
  case finite.finite =>
    simp only [UnpackedFloat.sub, UnpackedFloat.add, UnpackedFloat.neg, apply_neg,
      Int.sub_eq_add_neg]
  all_goals rfl

/-- Digits that end in zeros are shifted without loss. -/
theorem shiftRight_mul_two_pow (m k : ℕ) :
    (ExtendedMantissa.mk (m * 2 ^ k) false false) >>> k = ⟨m, false, false⟩ := by
  show k.repeat ExtendedMantissa.shiftRightOne _ = _
  induction k generalizing m with
  | zero => rw [pow_zero, mul_one]; rfl
  | succ k ih =>
    rw [pow_succ', ← mul_assoc, Nat.repeat, ih]
    simp [ExtendedMantissa.shiftRightOne]

theorem log2_mul_two_pow {m : ℕ} (hm : m ≠ 0) (k : ℕ) : (m * 2 ^ k).log2 = m.log2 + k := by
  induction k with
  | zero => simp
  | succ k ih =>
    have hne : m * 2 ^ k ≠ 0 := mul_ne_zero hm (by positivity)
    rw [pow_succ, ← mul_assoc, Nat.log2_eq_log_two, Nat.log_mul_base Nat.one_lt_two hne,
      ← Nat.log2_eq_log_two, ih, Nat.add_assoc]

/-- A canonical number is brought back to its place. -/
theorem shift_of_canonical {s : Sign} {m : ℕ} {e : ℤ} {hm : 0 < m}
    (h : Canonical (.finite s m e hm)) (k : ℕ) :
    shiftToTargetExponent .binary64 (m * 2 ^ k) (e - k) .exact = (⟨m, false, false⟩, e) := by
  have htotal : Float.Model.totalExponent (m * 2 ^ k) (e - k) = Float.Model.totalExponent m e := by
    unfold Float.Model.totalExponent
    rw [log2_mul_two_pow hm.ne']
    push_cast
    omega
  have hamount : (e - (e - k)).toNat = k := by omega
  have hplace : e - (k : ℤ) + k = e := by omega
  unfold shiftToTargetExponent shiftToExponent
  rw [htotal, targetExponent_of_canonical h]
  simp only [hamount, hplace]
  exact congrArg (·, e) (shiftRight_mul_two_pow m k)

/-- A canonical number is not rounded. -/
theorem round_of_canonical {s : Sign} {m : ℕ} {e : ℤ} {hm : 0 < m}
    (h : Canonical (.finite s m e hm)) (k : ℕ) :
    roundWithAccuracy .binary64 s (m * 2 ^ k) (e - k) .exact = .finite s m e hm := by
  have hagain : shiftToTargetExponent .binary64 m e .exact = (⟨m, false, false⟩, e) := by
    have hnone := shift_of_canonical h 0
    rwa [pow_zero, mul_one, Nat.cast_zero, sub_zero] at hnone
  unfold roundWithAccuracy
  rw [shift_of_canonical h k]
  show (match shiftToTargetExponent .binary64 m e .exact with
    | (final, place) => if h : final.mantissa = 0 then UnpackedFloat.zero s
      else .finite s final.mantissa place (Nat.pos_of_ne_zero h)) = _
  rw [hagain]
  exact dif_neg hm.ne'

theorem one_mul_of_canonical (h : Canonical a) :
    UnpackedFloat.mul .binary64 (1.0 : Float).toModel.unpack a = a := by
  have hone : (1.0 : Float).toModel.unpack = .finite .positive (2 ^ 52) (-52) (by positivity) := rfl
  rw [hone]
  cases a with
  | notANumber => rfl
  | infinity s => cases s <;> rfl
  | zero s => cases s <;> rfl
  | finite s m e hm =>
    have hsign : Sign.positive * s = s := by cases s <;> rfl
    have hround := round_of_canonical h 52
    rw [mul_comm] at hround
    show roundWithAccuracy .binary64 (Sign.positive * s) (2 ^ 52 * m) (-52 + e) .exact = _
    rw [hsign, ← hround]
    congr 1
    omega

/-! ## Values -/

/-- An unpacked double without the sign of a zero. -/
def unsigned : UnpackedFloat → UnpackedFloat
  | .zero _ => .zero .positive
  | u => u

/-- A double up to the sign of zero. -/
def value (x : Float) : UnpackedFloat := unsigned x.toModel.unpack

theorem unsigned_eq_iff :
    unsigned a = unsigned a' ↔ a = a' ∨ ∃ s s', a = .zero s ∧ a' = .zero s' := by
  cases a <;> cases a' <;> simp [unsigned]

theorem unsigned_settle (h : unsigned a = unsigned a') :
    unsigned (settle a) = unsigned (settle a') := by
  rcases unsigned_eq_iff.mp h with rfl | ⟨s, s', rfl, rfl⟩
  · rfl
  · cases s <;> cases s' <;> rfl

theorem unsigned_add (ha : unsigned a = unsigned a') (hb : unsigned b = unsigned b') :
    unsigned (.add .binary64 a b) = unsigned (.add .binary64 a' b') := by
  rcases unsigned_eq_iff.mp ha with rfl | ⟨s, s', rfl, rfl⟩ <;>
    rcases unsigned_eq_iff.mp hb with rfl | ⟨t, t', rfl, rfl⟩
  · rfl
  · rcases a with _ | _ | s | _
    case zero => cases s <;> cases t <;> cases t' <;> rfl
    all_goals rfl
  · rcases b with _ | _ | t | _
    case zero => cases s <;> cases s' <;> cases t <;> rfl
    all_goals rfl
  · cases s <;> cases s' <;> cases t <;> cases t' <;> rfl

theorem unsigned_mul (ha : unsigned a = unsigned a') :
    unsigned (.mul .binary64 a b) = unsigned (.mul .binary64 a' b) := by
  rcases unsigned_eq_iff.mp ha with rfl | ⟨s, s', rfl, rfl⟩
  · rfl
  · cases b <;> rfl

theorem unsigned_neg (ha : unsigned a = unsigned a') : unsigned a.neg = unsigned a'.neg := by
  rcases unsigned_eq_iff.mp ha with rfl | ⟨s, s', rfl, rfl⟩
  · rfl
  · rfl

theorem value_add (hx : value x = value x') (hy : value y = value y') :
    value (x + y) = value (x' + y') := unsigned_settle (unsigned_add hx hy)

theorem value_mul_left (hx : value x = value x') : value (x * y) = value (x' * y) :=
  unsigned_settle (unsigned_mul hx)

theorem value_mul_comm (x y : Float) : value (x * y) = value (y * x) :=
  congrArg (fun u => unsigned (settle u)) unpacked_mul_comm

theorem value_mul_right (hy : value y = value y') : value (x * y) = value (x * y') := by
  rw [value_mul_comm, value_mul_left hy, value_mul_comm]

theorem value_sub (hx : value x = value x') (hy : value y = value y') :
    value (x - y) = value (x' - y') := by
  refine unsigned_settle ?_
  rw [unpacked_sub, unpacked_sub]
  exact unsigned_add hx (unsigned_neg hy)

theorem unpack_one_mul : (1.0 * x).toModel.unpack = x.toModel.unpack := by
  show settle (.mul .binary64 (1.0 : Float).toModel.unpack x.toModel.unpack) = _
  rw [one_mul_of_canonical (canonical_toModel x), settle_of_canonical (canonical_toModel x)]

theorem value_one_mul : value (1.0 * x) = value x := congrArg unsigned unpack_one_mul

/-- The sum that the interpreter forms. -/
theorem value_scaled_sum (factor : Float) : value (x + 1.0 * factor * y) = value (x + y * factor) :=
  value_add rfl ((value_mul_left value_one_mul).trans (value_mul_comm factor y))

/-- The difference that the interpreter forms as a sum. -/
theorem value_scaled_difference (factor : Float) :
    value (x + -1.0 * factor * y) = value (x - y * factor) := by
  have hfactor : (-1.0 * factor).toModel.unpack = factor.toModel.unpack.neg := by
    show settle (.mul .binary64 (1.0 : Float).toModel.unpack.neg factor.toModel.unpack) = _
    rw [unpacked_neg_mul, settle_neg, one_mul_of_canonical (canonical_toModel factor),
      settle_of_canonical (canonical_toModel factor)]
  have hproduct : (-1.0 * factor * y).toModel.unpack = (y * factor).toModel.unpack.neg := by
    show settle (.mul .binary64 (-1.0 * factor).toModel.unpack y.toModel.unpack) = _
    rw [hfactor, unpacked_neg_mul, settle_neg, unpacked_mul_comm]
    rfl
  show unsigned (settle (.add .binary64 _ _)) = unsigned (settle (.sub .binary64 _ _))
  rw [hproduct, unpacked_sub]

/-- Doubles that compare as equal have one value. -/
theorem value_eq_of_beq (h : (x == y) = true) : value x = value y := by
  obtain ⟨hx, hy, hrank⟩ := beq_iff.mp h
  rw [isNaN_eq] at hx hy
  unfold rank at hrank
  unfold value
  rcases hu : x.toModel.unpack with (_ | _) | _ | _ | ⟨_ | _, m, e, _⟩ <;>
    rcases hv : y.toModel.unpack with (_ | _) | _ | _ | ⟨_ | _, m', e', _⟩ <;>
    simp_all [unpackedRank, unsigned, UnpackedFloat.isNaN]

/-- A factor of one changes nothing. -/
theorem value_mul_of_one (h : (y == 1.0) = true) : value (x * y) = value x := by
  rw [value_mul_right (value_eq_of_beq h), value_mul_comm, value_one_mul]

/-- Only one itself compares as equal with one. -/
theorem eq_one_of_beq (h : (x == 1.0) = true) : x = 1.0 := by
  have hone : (1.0 : Float).toModel.unpack = .finite .positive (2 ^ 52) (-52) (by decide) := rfl
  obtain ⟨-, -, hrank⟩ := beq_iff.mp h
  have hx : x.toModel.unpack = .finite .positive (2 ^ 52) (-52) (by decide) := by
    unfold rank at hrank
    rw [hone] at hrank
    rcases hu : x.toModel.unpack with (_ | _) | _ | _ | ⟨_ | _, m, e, _⟩ <;>
      simp_all [unpackedRank]
    omega
  obtain ⟨⟨bits, hvalid⟩⟩ := x
  obtain ⟨s, e, m, hfields⟩ := exists_packComponents bits.toBitVec
  rw [Float.Model.unpack, ← hfields] at hx
  obtain ⟨rfl, he, hm⟩ := fields_of_unpack le_rfl hx
  obtain rfl : e = 1023#11 := BitVec.eq_of_toNat_eq (by simp; omega)
  obtain rfl : m = 0#52 := BitVec.eq_of_toNat_eq (by simpa using hm)
  obtain rfl : bits = (1.0 : Float).toModel.toBits :=
    UInt64.toBitVec_inj.mp (hfields.symm.trans rfl)
  rfl

end HybridGraph.Number
