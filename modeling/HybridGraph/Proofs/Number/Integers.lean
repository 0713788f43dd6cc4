import HybridGraph.Proofs.Number.Formats
/-!
# Doubles and integers

Truncation keeps the order and goes by values, and an integer of at most 53 digits is held as a
double exactly.  So words of a width pass through doubles unharmed:

    x ≤ y → truncate bits x ≤ truncate bits y                                    (truncate_mono)
    Exact n → truncate bits (ofInt n) = clampWord bits n               (truncate_ofInt_of_exact)
    -2 ^ (bits - 1) ≤ n < 2 ^ (bits - 1) → truncate bits (ofInt n) = n          (truncate_ofInt)

Words of 64 bits may have more digits.  They are changed then, all but the largest word, whose
double lies just behind the range and is truncated to its end (`truncate_ofInt_eq_self_iff`).
-/

namespace HybridGraph.Number

open Float.Model (UnpackedFloat)
open Float.Model.UnpackedFloat

variable {x y : Float}

/-! ## Integral parts -/

variable {bits : ℕ}

/-- The integers between the words of a width. -/
def clampWord (bits : ℕ) (n : ℤ) : ℤ := max (-twoPow (bits - 1)) (min (twoPow (bits - 1) - 1) n)

theorem clampWord_mono {n n' : ℤ} (h : n ≤ n') : clampWord bits n ≤ clampWord bits n' :=
  max_le_max le_rfl (min_le_min le_rfl h)

theorem low_le_clampWord (n : ℤ) : -twoPow (bits - 1) ≤ clampWord bits n := le_max_left _ _

theorem clampWord_le_high (n : ℤ) : clampWord bits n ≤ twoPow (bits - 1) - 1 := by
  have hpos : 0 < twoPow (bits - 1) := Nat.two_pow_pos _
  exact max_le (by omega) (min_le_left _ _)

/-- Truncation on unpacked doubles: infinities go to the ends of the range. -/
def unpackedTruncate (bits : ℕ) : UnpackedFloat → ℤ
  | .notANumber | .zero _ => clampWord bits 0
  | .infinity .negative => -twoPow (bits - 1)
  | .infinity .positive => twoPow (bits - 1) - 1
  | .finite s m e _ => clampWord bits (s.apply (wholePart m e))

theorem low_le_unpackedTruncate (a : UnpackedFloat) :
    -twoPow (bits - 1) ≤ unpackedTruncate bits a := by
  have hpos : 0 < twoPow (bits - 1) := Nat.two_pow_pos _
  rcases a with (_ | _) | _ | _ | _
  case infinity.negative => exact le_rfl
  case infinity.positive => exact (by omega : -(twoPow (bits - 1) : ℤ) ≤ twoPow (bits - 1) - 1)
  all_goals exact low_le_clampWord _

theorem unpackedTruncate_le_high (a : UnpackedFloat) :
    unpackedTruncate bits a ≤ twoPow (bits - 1) - 1 := by
  have hpos : 0 < twoPow (bits - 1) := Nat.two_pow_pos _
  rcases a with (_ | _) | _ | _ | _
  case infinity.negative => exact (by omega : -(twoPow (bits - 1) : ℤ) ≤ twoPow (bits - 1) - 1)
  case infinity.positive => exact le_rfl
  all_goals exact clampWord_le_high _

theorem clampWord_zero : clampWord bits 0 = 0 := by
  have hpos : 0 < twoPow (bits - 1) := Nat.two_pow_pos _
  unfold clampWord
  omega

theorem wholePart_zero (e : ℤ) : wholePart 0 e = 0 := by
  unfold wholePart
  split <;> simp

theorem truncate_eq (x : Float) : truncate bits x = unpackedTruncate bits x.toModel.unpack := by
  unfold truncate
  rw [unpackDouble_eq]
  rcases x.toModel.unpack with (_ | _) | _ | (_ | _) | ⟨_ | _, m, e, _⟩
  case zero.negative => exact congrArg (clampWord bits) (congrArg (signed true) (wholePart_zero _))
  case zero.positive => exact congrArg (clampWord bits) (congrArg (signed false) (wholePart_zero _))
  case notANumber => exact clampWord_zero.symm
  all_goals rfl

theorem truncate_eq_of_value (h : value x = value y) : truncate bits x = truncate bits y := by
  rw [truncate_eq, truncate_eq]
  rcases unsigned_eq_iff.mp h with h | ⟨s, s', hx, hy⟩
  · rw [h]
  · rw [hx, hy]
    rfl

theorem wholePart_mono {s s' : Sign} {m m' : ℕ} {e e' : ℤ} {hm : 0 < m} {hm' : 0 < m'}
    (h : Canonical (.finite s m e hm)) (h' : Canonical (.finite s' m' e' hm'))
    (hle : e < e' ∨ e = e' ∧ m ≤ m') : wholePart m e ≤ wholePart m' e' := by
  obtain ⟨hlt, hlow, -, -⟩ := h
  obtain ⟨-, -, -, hfull⟩ := h'
  unfold wholePart
  rcases hle with hless | ⟨rfl, hle⟩
  · have hlarge : 2 ^ 52 ≤ m' := hfull.resolve_right (by omega)
    split
    · next hpos =>
      rw [if_pos (by omega)]
      have hsplit : e'.toNat = e.toNat + 1 + (e' - e - 1).toNat := by omega
      calc m * twoPow e.toNat ≤ (2 * m') * 2 ^ e.toNat := Nat.mul_le_mul_right _ (by omega)
        _ = m' * 2 ^ (e.toNat + 1) := by ring
        _ ≤ m' * 2 ^ e'.toNat := Nat.mul_le_mul_left _ (Nat.pow_le_pow_right (by omega) (by omega))
    · next hneg =>
      have hhalf : m / 2 < m' := by omega
      split
      · next hpos' =>
        calc m / twoPow (-e).toNat ≤ m / 2 ^ 1 :=
              Nat.div_le_div_left (Nat.pow_le_pow_right (by omega) (by omega)) (by omega)
          _ ≤ m' := by omega
          _ ≤ m' * twoPow e'.toNat := Nat.le_mul_of_pos_right _ (Nat.two_pow_pos _)
      · next hneg' =>
        calc m / twoPow (-e).toNat ≤ m / 2 ^ (1 + (-e').toNat) :=
              Nat.div_le_div_left (Nat.pow_le_pow_right (by omega) (by omega)) (by positivity)
          _ = m / 2 / 2 ^ (-e').toNat := by rw [pow_add, pow_one, Nat.div_div_eq_div_mul]
          _ ≤ m' / twoPow (-e').toNat := Nat.div_le_div_right hhalf.le
  · split
    · exact Nat.mul_le_mul_right _ hle
    · exact Nat.div_le_div_right hle

/-- Truncation keeps the order. -/
theorem truncate_mono (h : x ≤ y) : truncate bits x ≤ truncate bits y := by
  obtain ⟨hx, hy, hrank⟩ := le_iff.mp h
  have hcx := canonical_toModel x
  have hcy := canonical_toModel y
  rw [isNaN_eq] at hx hy
  unfold rank at hrank
  rw [truncate_eq, truncate_eq]
  generalize x.toModel.unpack = a at *
  generalize y.toModel.unpack = b at *
  rcases a with (_ | _) | _ | _ | ⟨_ | _, m, e, _⟩ <;>
    rcases b with (_ | _) | _ | _ | ⟨_ | _, m', e', _⟩ <;>
    simp [unpackedRank, Prod.Lex.toLex_le_toLex, UnpackedFloat.isNaN] at hrank hx hy ⊢
  case finite.negative.finite.negative =>
    have hparts := wholePart_mono hcy hcx (hrank.imp_right fun h => ⟨h.1.symm, h.2⟩)
    exact clampWord_mono (Int.neg_le_neg (Int.ofNat_le.mpr hparts))
  case finite.positive.finite.positive =>
    exact clampWord_mono (Int.ofNat_le.mpr (wholePart_mono hcx hcy hrank))
  -- an infinity, or signs that differ
  all_goals first
    | exact low_le_unpackedTruncate _
    | exact unpackedTruncate_le_high _
    | exact clampWord_mono (by simp [Sign.apply])

/-! ## Integers as doubles -/

variable {n : ℤ}

/-- An integer that a double holds: at most 53 digits, up to zeros behind them. -/
def Exact (n : ℤ) : Prop := ∃ m k : ℕ, n.natAbs = m * 2 ^ k ∧ m < 2 ^ 53 ∧ k ≤ 971

theorem Exact.of_le (h : n.natAbs ≤ 2 ^ 53) : Exact n := by
  rcases Nat.lt_or_eq_of_le h with hlt | heq
  · exact ⟨n.natAbs, 0, (Nat.mul_one _).symm, hlt, by omega⟩
  · exact ⟨1, 53, heq.trans (Nat.one_mul _).symm, by omega, by omega⟩

theorem Exact.of_wholePart {s : Sign} {m : ℕ} {e : ℤ} {hm : 0 < m}
    (h : Canonical (.finite s m e hm)) (hn : n.natAbs = wholePart m e) : Exact n := by
  obtain ⟨hlt, -, hle, -⟩ := h
  unfold wholePart at hn
  split at hn
  · exact ⟨m, e.toNat, hn, hlt, by omega⟩
  · exact .of_le (hn ▸ (Nat.div_le_self _ _).trans hlt.le)

/-- Zeros behind the digits may be part of the exponent. -/
theorem unpackDouble_ofInt {m k : ℕ} (hn : n.natAbs = m * 2 ^ k) (hpos : 0 < m) (hlt : m < 2 ^ 53)
    (hk : k ≤ 971) : unpackDouble (ofInt n) =
      .finite (n < 0) (m * 2 ^ (52 - m.log2)) (k - (52 - m.log2 : ℕ)) := by
  have hmagnitude := BinaryFormat.double.packMagnitude_scale m k k
  rw [Int.sub_self, ← hn] at hmagnitude
  have hpacked : BinaryFormat.double.pack (unpackInt n) =
      BinaryFormat.double.pack (.finite (n < 0) m k) :=
    congrArg (BinaryFormat.double.signBits (n < 0) + ·) hmagnitude
  rw [ofInt, packDouble, hpacked]
  exact unpackDouble_packDouble_finite hpos hlt (by omega) (by omega)

/-- What a double holds is truncated to itself, if it is within the words. -/
theorem truncate_ofInt_of_exact (h : Exact n) : truncate bits (ofInt n) = clampWord bits n := by
  obtain ⟨m, k, hn, hlt, hk⟩ := h
  rcases Nat.eq_zero_or_pos m with rfl | hpos
  · obtain rfl : n = 0 := Int.natAbs_eq_zero.mp (hn.trans (Nat.zero_mul _))
    have hzero : (ofInt 0).toModel.unpack = .zero .positive := rfl
    rw [truncate_eq, hzero]
    rfl
  have hwhole : wholePart (m * 2 ^ (52 - m.log2)) (k - (52 - m.log2 : ℕ)) = n.natAbs := by
    generalize 52 - m.log2 = shift
    unfold wholePart
    split
    · next hle =>
      have hplaces : k = shift + ((k : ℤ) - shift).toNat := by omega
      conv_rhs => rw [hn, hplaces, pow_add, ← Nat.mul_assoc]
      rfl
    · next hle =>
      have hplaces : shift = k + (-((k : ℤ) - shift)).toNat := by omega
      conv_lhs => rw [hplaces, pow_add, ← Nat.mul_assoc, ← hn, ← hplaces]
      exact Nat.mul_div_cancel _ (Nat.two_pow_pos _)
  have hsigned : signed (n < 0) n.natAbs = n := by
    unfold signed
    by_cases h : n < 0
    · simp only [h, decide_true, if_true]
      omega
    · simp only [h, decide_false, Bool.false_eq_true, if_false]
      omega
  unfold truncate
  rw [unpackDouble_ofInt hn hpos hlt hk]
  show clampWord bits (signed _ (wholePart _ _)) = _
  rw [hwhole, hsigned]

theorem clampWord_eq (hlow : -twoPow (bits - 1) ≤ n) (hhigh : n < twoPow (bits - 1)) :
    clampWord bits n = n := by
  unfold clampWord
  omega

/-- Words are truncated to themselves. -/
theorem truncate_ofInt (hbits : bits ≤ 53) (hlow : -twoPow (bits - 1) ≤ n)
    (hhigh : n < twoPow (bits - 1)) : truncate bits (ofInt n) = n := by
  have hle : twoPow (bits - 1) ≤ 2 ^ 52 := Nat.pow_le_pow_right (by omega) (by omega)
  rw [truncate_ofInt_of_exact (.of_le (by omega)), clampWord_eq hlow hhigh]

/-- What is truncated is held by a double, unless it is the largest word. -/
theorem exact_truncate (hbits : bits ≤ 972) (x : Float) :
    Exact (truncate bits x) ∨ truncate bits x = twoPow (bits - 1) - 1 := by
  have hlow : Exact (-twoPow (bits - 1)) :=
    ⟨1, bits - 1, by rw [Int.natAbs_neg, Int.natAbs_natCast, Nat.one_mul]; rfl, by omega, by omega⟩
  have hclamp {n : ℤ} (h : Exact n) :
      Exact (clampWord bits n) ∨ clampWord bits n = twoPow (bits - 1) - 1 := by
    unfold clampWord
    rcases max_choice (-(twoPow (bits - 1) : ℤ)) (min (twoPow (bits - 1) - 1) n) with heq | heq
    · exact .inl (heq.symm ▸ hlow)
    rcases min_choice (twoPow (bits - 1) - 1 : ℤ) n with heq' | heq'
    · exact .inr (heq.trans heq')
    · exact .inl ((heq.trans heq').symm ▸ h)
  have hcanonical := canonical_toModel x
  rw [truncate_eq]
  generalize x.toModel.unpack = u at hcanonical
  rcases u with (_ | _) | _ | (_ | _) | ⟨_ | _, m, e, _⟩
  case infinity.negative => exact .inl hlow
  case infinity.positive => exact .inr rfl
  case finite.negative => exact hclamp (.of_wholePart hcanonical (Int.natAbs_neg _))
  case finite.positive => exact hclamp (.of_wholePart hcanonical rfl)
  all_goals exact hclamp (.of_le (by decide))

/-- The words of 64 bits that pass through doubles. -/
theorem truncate_ofInt_eq_self_iff (hlow : -2 ^ 63 ≤ n) (hhigh : n < 2 ^ 63) :
    truncate 64 (ofInt n) = n ↔ Exact n ∨ n = 2 ^ 63 - 1 := by
  constructor
  · intro h
    rw [← h]
    exact exact_truncate (by decide) _
  · rintro (hexact | rfl)
    · rw [truncate_ofInt_of_exact hexact, clampWord_eq hlow hhigh]
    · decide +kernel

theorem isNaN_ofInt (hlt : n.natAbs < 2 ^ 53) : (ofInt n).isNaN = false := by
  by_cases hn : n = 0
  · subst hn
    rfl
  have hparts := unpackDouble_ofInt (k := 0) (Nat.mul_one _).symm (Int.natAbs_pos.mpr hn) hlt
    (by omega)
  rw [unpackDouble_eq] at hparts
  rw [isNaN_eq]
  cases hu : (ofInt n).toModel.unpack with
  | notANumber => rw [hu] at hparts; cases hparts
  | _ => rfl

end HybridGraph.Number
