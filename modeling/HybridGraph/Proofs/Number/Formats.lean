import HybridGraph.Proofs.Number.Arithmetic
/-!
# Exact conversions

A format holds the numbers `±m · 2 ^ e` whose digits and exponent fit its fields.  Packing such a
number gives fields that unpack to it, and packing goes by the number, not by how it is written:

    f.Canonical m e → f.unpack (f.pack (.finite s m e)) = .finite s m e              (unpack_pack)
    f.packMagnitude (m * 2 ^ j) (e - j) = f.packMagnitude m e                  (packMagnitude_scale)

So what a narrow format holds comes back from a wider one.  Singles come back from doubles
(`narrow_widen`), and rounding to halves happens once (`roundToHalf_roundToHalf`).
-/

namespace HybridGraph.Number

theorem twoPow_eq (n : ℕ) : twoPow n = 2 ^ n := rfl

/-! ## Rounding -/

/-- Rounding goes by the quotient. -/
theorem roundShift_mul (m j places : ℕ) :
    roundShift (m * 2 ^ j) (places + j) = roundShift m places := by
  have hpos : 0 < 2 ^ j := Nat.two_pow_pos j
  have hkept : m * 2 ^ j / 2 ^ (places + j) = m / 2 ^ places := by
    rw [pow_add, Nat.mul_div_mul_right _ _ hpos]
  have hrest : m * 2 ^ j % 2 ^ (places + j) = m % 2 ^ places * 2 ^ j := by
    rw [pow_add, Nat.mul_mod_mul_right]
  have hless : 2 ^ (places + j) < 2 * (m % 2 ^ places * 2 ^ j) ↔
      2 ^ places < 2 * (m % 2 ^ places) := by
    rw [pow_add, ← Nat.mul_assoc, Nat.mul_lt_mul_right hpos]
  have heq : 2 ^ (places + j) = 2 * (m % 2 ^ places * 2 ^ j) ↔
      2 ^ places = 2 * (m % 2 ^ places) := by
    rw [pow_add, ← Nat.mul_assoc, Nat.mul_left_inj hpos.ne']
  unfold roundShift
  simp only [twoPow_eq, hkept, hrest, hless, heq]
  rfl

/-- Whole numbers are not rounded. -/
theorem roundShift_of_dvd (m places : ℕ) : roundShift (m * 2 ^ places) places = m := by
  have hpos : 0 < 2 ^ places := Nat.two_pow_pos places
  have hkept : m * 2 ^ places / 2 ^ places = m := Nat.mul_div_cancel m hpos
  have hrest : m * 2 ^ places % 2 ^ places = 0 := Nat.mul_mod_left m _
  unfold roundShift
  simp only [twoPow_eq, hkept, hrest]
  rw [if_neg (by omega)]

namespace BinaryFormat

variable {f : BinaryFormat} {m : ℕ} {e : ℤ}

/-- Packing goes by the number. -/
theorem packMagnitude_scale (f : BinaryFormat) (m j : ℕ) (e : ℤ) :
    f.packMagnitude (m * 2 ^ j) (e - j) = f.packMagnitude m e := by
  by_cases hm : m = 0
  · rw [hm, Nat.zero_mul]
    rfl
  have hplace : e - j + ((m * 2 ^ j).log2 : ℕ) - f.fractionBits = e + m.log2 - f.fractionBits := by
    rw [log2_mul_two_pow hm]
    push_cast
    ring
  have hne : m * 2 ^ j ≠ 0 := Nat.mul_ne_zero hm (Nat.two_pow_pos j).ne'
  unfold packMagnitude
  rw [if_neg hm, if_neg hne]
  simp only [hplace]
  generalize max (e + (m.log2 : ℤ) - f.fractionBits) f.minExponent = place
  congr 2
  simp only [twoPow_eq]
  by_cases hle : place ≤ e
  · rw [if_pos hle]
    split
    · next hle' =>
      have hshift : (e - place).toNat = j + (e - j - place).toNat := by omega
      rw [hshift, pow_add, Nat.mul_assoc]
    · next hle' =>
      have hshift : j = (e - place).toNat + (place - (e - j)).toNat := by omega
      conv_lhs => rw [hshift, pow_add, ← Nat.mul_assoc]
      rw [← hshift]
      exact roundShift_of_dvd _ _
  · have hshift : (place - (e - j)).toNat = (place - e).toNat + j := by omega
    rw [if_neg hle, if_neg (by omega), hshift, roundShift_mul]

/-- The digits and the exponent that fields of the format spell. -/
structure Canonical (f : BinaryFormat) (m : ℕ) (e : ℤ) : Prop where
  digits : m < 2 ^ (f.fractionBits + 1)
  low : f.minExponent ≤ e
  high : e < f.minExponent + (2 ^ f.exponentBits - 2 : ℕ)
  full : 2 ^ f.fractionBits ≤ m ∨ e = f.minExponent

theorem packMagnitude_of_canonical (h : f.Canonical m e) :
    f.packMagnitude m e = (e - f.minExponent).toNat * 2 ^ f.fractionBits + m := by
  obtain ⟨hdigits, hlow, hhigh, hfull⟩ := h
  by_cases hm : m = 0
  · subst hm
    have hzero : e = f.minExponent := hfull.resolve_left (Nat.not_le.mpr (Nat.two_pow_pos _))
    simp [packMagnitude, hzero]
  have hlog : m.log2 < f.fractionBits + 1 := (Nat.log2_lt hm).mpr hdigits
  have hplace : max (e + (m.log2 : ℤ) - f.fractionBits) f.minExponent = e := by
    rcases hfull with hfull | hfull
    · have hlog' : f.fractionBits ≤ m.log2 := (Nat.le_log2 hm).mpr hfull
      omega
    · omega
  have hbound : (e - f.minExponent).toNat * 2 ^ f.fractionBits + m ≤ f.infinityBits := by
    have hplaces : (e - f.minExponent).toNat + 2 ≤ 2 ^ f.exponentBits - 1 := by omega
    calc (e - f.minExponent).toNat * 2 ^ f.fractionBits + m
        ≤ ((e - f.minExponent).toNat + 2) * 2 ^ f.fractionBits := by
          rw [pow_succ] at hdigits
          rw [Nat.add_mul]
          omega
      _ ≤ (2 ^ f.exponentBits - 1) * 2 ^ f.fractionBits := Nat.mul_le_mul_right _ hplaces
  unfold packMagnitude
  rw [if_neg hm]
  simp only [hplace, if_pos le_rfl, Int.sub_self, Int.toNat_zero, twoPow_eq, pow_zero, Nat.mul_one]
  exact Nat.min_eq_left hbound

theorem signBits_eq (f : BinaryFormat) (s : Bool) :
    f.signBits s = s.toNat * (2 ^ f.exponentBits * 2 ^ f.fractionBits) := by
  cases s
  · exact (Nat.zero_mul _).symm
  · rw [Bool.toNat_true, Nat.one_mul, ← pow_add]
    rfl

/-- The fields of bits that are put together. -/
theorem unpack_fields {s : Bool} {field fraction : ℕ} (hfield : field < 2 ^ f.exponentBits)
    (hfraction : fraction < 2 ^ f.fractionBits) :
    f.unpack (f.signBits s + (field * 2 ^ f.fractionBits + fraction)) =
      if field = 2 ^ f.exponentBits - 1 then if fraction = 0 then .infinite s else .notANumber
      else if field = 0 then .finite s fraction f.minExponent
      else .finite s (2 ^ f.fractionBits + fraction) (f.minExponent + (field - 1 : ℕ)) := by
  have hbits : f.signBits s + (field * 2 ^ f.fractionBits + fraction) =
      2 ^ f.fractionBits * (2 ^ f.exponentBits * s.toNat + field) + fraction := by
    rw [signBits_eq]
    ring
  have hpos : 0 < 2 ^ f.fractionBits := Nat.two_pow_pos _
  have hlast : (f.signBits s + (field * 2 ^ f.fractionBits + fraction)) % 2 ^ f.fractionBits =
      fraction := by
    rw [hbits, Nat.mul_add_mod, Nat.mod_eq_of_lt hfraction]
  have hfirst : (f.signBits s + (field * 2 ^ f.fractionBits + fraction)) / 2 ^ f.fractionBits =
      2 ^ f.exponentBits * s.toNat + field := by
    rw [hbits, Nat.mul_add_div hpos, Nat.div_eq_of_lt hfraction, Nat.add_zero]
  have hmiddle : (2 ^ f.exponentBits * s.toNat + field) % 2 ^ f.exponentBits = field := by
    rw [Nat.mul_add_mod, Nat.mod_eq_of_lt hfield]
  have hsign : (f.signBits s + (field * 2 ^ f.fractionBits + fraction)) /
      2 ^ (f.exponentBits + f.fractionBits) % 2 = s.toNat := by
    rw [Nat.add_comm f.exponentBits, pow_add, ← Nat.div_div_eq_div_mul, hfirst,
      Nat.mul_add_div (Nat.two_pow_pos _), Nat.div_eq_of_lt hfield, Nat.add_zero]
    cases s <;> rfl
  have hnegative : (s.toNat == 1) = s := by cases s <;> rfl
  unfold unpack
  simp only [twoPow_eq, hlast, hfirst, hmiddle, hsign, hnegative]

theorem unpack_pack {s : Bool} (h : f.Canonical m e) :
    f.unpack (f.pack (.finite s m e)) = .finite s m e := by
  obtain ⟨hdigits, hlow, hhigh, hfull⟩ := h
  show f.unpack (f.signBits s + f.packMagnitude m e) = _
  rw [packMagnitude_of_canonical ⟨hdigits, hlow, hhigh, hfull⟩]
  rw [pow_succ] at hdigits
  by_cases hnormal : 2 ^ f.fractionBits ≤ m
  · have hsplit : (e - f.minExponent).toNat * 2 ^ f.fractionBits + m =
        ((e - f.minExponent).toNat + 1) * 2 ^ f.fractionBits + (m - 2 ^ f.fractionBits) := by
      rw [Nat.add_mul]
      omega
    rw [hsplit, unpack_fields (by omega) (by omega), if_neg (by omega), if_neg (by omega)]
    congr 1 <;> omega
  · have hzero : (e - f.minExponent).toNat = 0 := by omega
    rw [hzero, unpack_fields (by omega) (by omega), if_neg (by omega), if_pos rfl]
    congr 1
    omega

theorem unpack_pack_notANumber (hF : 0 < f.fractionBits) :
    f.unpack (f.pack .notANumber) = .notANumber := by
  have hE : 0 < 2 ^ f.exponentBits := Nat.two_pow_pos _
  have hpos : 0 < 2 ^ (f.fractionBits - 1) := Nat.two_pow_pos _
  have hhalf : 2 ^ (f.fractionBits - 1) < 2 ^ f.fractionBits :=
    Nat.pow_lt_pow_right (by omega) (by omega)
  have hbits : f.pack .notANumber = f.signBits false +
      ((2 ^ f.exponentBits - 1) * 2 ^ f.fractionBits + 2 ^ (f.fractionBits - 1)) :=
    (Nat.zero_add _).symm
  rw [hbits, unpack_fields (by omega) hhalf, if_pos rfl, if_neg hpos.ne']

theorem unpack_pack_infinite (f : BinaryFormat) (s : Bool) :
    f.unpack (f.pack (.infinite s)) = .infinite s := by
  have hE : 0 < 2 ^ f.exponentBits := Nat.two_pow_pos _
  show f.unpack (f.signBits s + ((2 ^ f.exponentBits - 1) * 2 ^ f.fractionBits + 0)) = _
  rw [unpack_fields (by omega) (Nat.two_pow_pos _), if_pos rfl, if_pos rfl]

/-- Bits of the format are a sign, an exponent and a fraction. -/
theorem exists_fields {bits : ℕ} (h : bits < 2 ^ (1 + f.exponentBits + f.fractionBits)) :
    ∃ (s : Bool) (field fraction : ℕ), field < 2 ^ f.exponentBits ∧
      fraction < 2 ^ f.fractionBits ∧
        bits = f.signBits s + (field * 2 ^ f.fractionBits + fraction) := by
  have hE : 0 < 2 ^ f.exponentBits := Nat.two_pow_pos _
  have hF : 0 < 2 ^ f.fractionBits := Nat.two_pow_pos _
  refine ⟨decide (bits / 2 ^ f.fractionBits / 2 ^ f.exponentBits = 1),
    bits / 2 ^ f.fractionBits % 2 ^ f.exponentBits, bits % 2 ^ f.fractionBits,
    Nat.mod_lt _ hE, Nat.mod_lt _ hF, ?_⟩
  have hsign : bits / 2 ^ f.fractionBits / 2 ^ f.exponentBits < 2 := by
    rw [Nat.div_div_eq_div_mul, Nat.div_lt_iff_lt_mul (Nat.mul_pos hF hE)]
    calc bits < 2 ^ (1 + f.exponentBits + f.fractionBits) := h
      _ = 2 * (2 ^ f.fractionBits * 2 ^ f.exponentBits) := by ring
  have hsignBits : (decide (bits / 2 ^ f.fractionBits / 2 ^ f.exponentBits = 1)).toNat =
      bits / 2 ^ f.fractionBits / 2 ^ f.exponentBits := by
    interval_cases bits / 2 ^ f.fractionBits / 2 ^ f.exponentBits <;> rfl
  have hlow := Nat.div_add_mod bits (2 ^ f.fractionBits)
  have hhigh := Nat.div_add_mod (bits / 2 ^ f.fractionBits) (2 ^ f.exponentBits)
  rw [signBits_eq, hsignBits]
  conv_lhs => rw [← hlow, ← hhigh]
  ring

/-- What is read is not a number, infinite, or canonical, and it is packed as it was read. -/
theorem unpack_cases {bits : ℕ} (hE : 2 ≤ f.exponentBits)
    (hbits : bits < 2 ^ (1 + f.exponentBits + f.fractionBits)) :
    f.unpack bits = .notANumber ∨
      (∃ s, f.unpack bits = .infinite s ∧ f.signBits s + f.infinityBits = bits) ∨
      ∃ s m e, f.unpack bits = .finite s m e ∧ f.Canonical m e ∧
        f.signBits s + f.packMagnitude m e = bits := by
  obtain ⟨s, field, fraction, hfield, hfraction, rfl⟩ := exists_fields hbits
  have hwide : 2 ^ 2 ≤ 2 ^ f.exponentBits := Nat.pow_le_pow_right (by omega) hE
  rw [unpack_fields hfield hfraction]
  split
  · next hones =>
    split
    · next hnone =>
      subst hones hnone
      exact .inr (.inl ⟨s, rfl, rfl⟩)
    · exact .inl rfl
  · refine .inr (.inr ?_)
    split
    · next hzero =>
      have hcanonical : f.Canonical fraction f.minExponent :=
        ⟨by rw [pow_succ]; omega, le_rfl, by omega, .inr rfl⟩
      refine ⟨s, fraction, f.minExponent, rfl, hcanonical, ?_⟩
      rw [packMagnitude_of_canonical hcanonical, hzero, Int.sub_self]
      rfl
    · next hpos =>
      have hcanonical : f.Canonical (2 ^ f.fractionBits + fraction)
          (f.minExponent + (field - 1 : ℕ)) :=
        ⟨by rw [pow_succ]; omega, by omega, by omega, .inl (by omega)⟩
      refine ⟨s, _, _, rfl, hcanonical, ?_⟩
      have hplaces : (f.minExponent + (field - 1 : ℕ) - f.minExponent).toNat = field - 1 := by omega
      have hcarry : field * 2 ^ f.fractionBits =
          (field - 1) * 2 ^ f.fractionBits + 2 ^ f.fractionBits := by
        rw [← Nat.succ_mul, Nat.succ_eq_add_one, Nat.sub_add_cancel (by omega)]
      rw [packMagnitude_of_canonical hcanonical, hplaces, hcarry]
      ring

theorem packMagnitude_le (f : BinaryFormat) (m : ℕ) (e : ℤ) :
    f.packMagnitude m e ≤ f.infinityBits := by
  unfold packMagnitude
  split
  · exact Nat.zero_le _
  · exact Nat.min_le_right _ _

/-- Packed numbers fit the bits of the format. -/
theorem pack_lt (hF : 0 < f.fractionBits) (u : Unpacked) :
    f.pack u < 2 ^ (1 + f.exponentBits + f.fractionBits) := by
  have hpos : 0 < 2 ^ f.exponentBits * 2 ^ f.fractionBits := by positivity
  have hwidth : 2 ^ (1 + f.exponentBits + f.fractionBits) =
      2 * (2 ^ f.exponentBits * 2 ^ f.fractionBits) := by ring
  have hsign (s : Bool) : f.signBits s ≤ 2 ^ f.exponentBits * 2 ^ f.fractionBits := by
    rw [signBits_eq]
    cases s <;> simp
  have hinfinity : f.infinityBits + 2 ^ f.fractionBits =
      2 ^ f.exponentBits * 2 ^ f.fractionBits := by
    show (2 ^ f.exponentBits - 1) * 2 ^ f.fractionBits + 2 ^ f.fractionBits = _
    rw [← Nat.succ_mul, Nat.succ_eq_add_one, Nat.sub_add_cancel Nat.one_le_two_pow]
  have hfraction : 0 < 2 ^ f.fractionBits := Nat.two_pow_pos _
  rw [hwidth]
  cases u with
  | notANumber =>
    have hhalf : 2 ^ (f.fractionBits - 1) ≤ 2 ^ f.fractionBits :=
      Nat.pow_le_pow_right (by omega) (by omega)
    show f.infinityBits + 2 ^ (f.fractionBits - 1) < _
    omega
  | infinite s =>
    have := hsign s
    show f.signBits s + f.infinityBits < _
    omega
  | finite s m e =>
    have := hsign s
    have := f.packMagnitude_le m e
    show f.signBits s + f.packMagnitude m e < _
    omega

/-! ## Wider formats -/

/-- Shifted until they fill the fraction, the digits of a number are as many as the format has. -/
theorem filled_digits (hpos : 0 < m) (hlt : m < 2 ^ (f.fractionBits + 1)) :
    m.log2 ≤ f.fractionBits ∧ 2 ^ f.fractionBits ≤ m * 2 ^ (f.fractionBits - m.log2) ∧
      m * 2 ^ (f.fractionBits - m.log2) < 2 ^ (f.fractionBits + 1) := by
  have hlog : m.log2 < f.fractionBits + 1 := (Nat.log2_lt hpos.ne').mpr hlt
  refine ⟨by omega, ?_, ?_⟩
  · calc 2 ^ f.fractionBits = 2 ^ m.log2 * 2 ^ (f.fractionBits - m.log2) := by
          rw [← pow_add, Nat.add_sub_cancel' (by omega)]
      _ ≤ m * 2 ^ (f.fractionBits - m.log2) :=
          Nat.mul_le_mul_right _ (Nat.log2_self_le hpos.ne')
  · calc m * 2 ^ (f.fractionBits - m.log2) < 2 ^ (m.log2 + 1) * 2 ^ (f.fractionBits - m.log2) :=
          Nat.mul_lt_mul_of_pos_right Nat.lt_log2_self (Nat.two_pow_pos _)
      _ = 2 ^ (f.fractionBits + 1) := by
          rw [← pow_add, Nat.add_right_comm, Nat.add_sub_cancel' (by omega)]

/-- Digits that fit the format, at an exponent from which they can be shifted into place. -/
structure FitsFinite (f : BinaryFormat) (m : ℕ) (e : ℤ) : Prop where
  digits : m < 2 ^ (f.fractionBits + 1)
  low : f.minExponent + f.fractionBits ≤ e
  high : e < f.minExponent + (2 ^ f.exponentBits - 2 : ℕ)

/-- A number that the format holds. -/
def Fits (f : BinaryFormat) : Unpacked → Prop
  | .finite _ m e => m = 0 ∨ f.FitsFinite m e
  | _ => True

theorem unpack_pack_of_fits {s : Bool} (hpos : 0 < m) (h : f.FitsFinite m e) :
    f.unpack (f.pack (.finite s m e)) =
      .finite s (m * 2 ^ (f.fractionBits - m.log2)) (e - (f.fractionBits - m.log2 : ℕ)) := by
  obtain ⟨hlt, hlow, hhigh⟩ := h
  obtain ⟨hlog, hfull, hdigits⟩ := filled_digits hpos hlt
  have hcanonical : f.Canonical (m * 2 ^ (f.fractionBits - m.log2))
      (e - (f.fractionBits - m.log2 : ℕ)) := ⟨hdigits, by omega, by omega, .inl hfull⟩
  rw [← unpack_pack hcanonical]
  show f.unpack (f.signBits s + _) = f.unpack (f.signBits s + _)
  rw [packMagnitude_scale]

/-- What a format holds is packed into any format as if it had not been held. -/
theorem pack_unpack_pack (g : BinaryFormat) (hE : 2 ≤ f.exponentBits) (hF : 0 < f.fractionBits)
    {u : Unpacked} (h : f.Fits u) : g.pack (f.unpack (f.pack u)) = g.pack u := by
  have hwide : 2 ^ 2 ≤ 2 ^ f.exponentBits := Nat.pow_le_pow_right (by omega) hE
  cases u with
  | notANumber => rw [unpack_pack_notANumber hF]
  | infinite s => rw [unpack_pack_infinite]
  | finite s m e =>
    rcases Nat.eq_zero_or_pos m with rfl | hm
    · have hbits : f.pack (.finite s 0 e) = f.signBits s + (0 * 2 ^ f.fractionBits + 0) := by
        rw [Nat.zero_mul]
        rfl
      rw [hbits, unpack_fields (by omega) (Nat.two_pow_pos _), if_neg (by omega), if_pos rfl]
      rfl
    · rw [unpack_pack_of_fits hm (h.resolve_left hm.ne')]
      show g.signBits s + _ = g.signBits s + _
      rw [packMagnitude_scale]

/-- A format that holds all that a narrower one spells. -/
structure Includes (g f : BinaryFormat) : Prop where
  digits : f.fractionBits ≤ g.fractionBits
  low : g.minExponent + g.fractionBits ≤ f.minExponent
  high : f.minExponent + (2 ^ f.exponentBits - 2 : ℕ) ≤
    g.minExponent + (2 ^ g.exponentBits - 2 : ℕ)

theorem Includes.fits {g : BinaryFormat} (h : g.Includes f) (hE : 2 ≤ f.exponentBits) {bits : ℕ}
    (hbits : bits < 2 ^ (1 + f.exponentBits + f.fractionBits)) : g.Fits (f.unpack bits) := by
  rcases unpack_cases hE hbits with hu | ⟨s, hu, -⟩ | ⟨s, m, e, hu, hcanonical, -⟩
  · rw [hu]
    trivial
  · rw [hu]
    trivial
  · rw [hu]
    refine .inr ⟨?_, h.low.trans hcanonical.low, hcanonical.high.trans_le h.high⟩
    exact hcanonical.digits.trans_le
      (Nat.pow_le_pow_right (by omega) (Nat.succ_le_succ h.digits))

/-- Reading and packing what is spelled a second time changes nothing. -/
theorem unpack_pack_unpack (hE : 2 ≤ f.exponentBits) (hF : 0 < f.fractionBits) {bits : ℕ}
    (hbits : bits < 2 ^ (1 + f.exponentBits + f.fractionBits)) :
    f.unpack (f.pack (f.unpack bits)) = f.unpack bits := by
  rcases unpack_cases hE hbits with hu | ⟨s, hu, -⟩ | ⟨s, m, e, hu, hcanonical, -⟩
  · rw [hu, unpack_pack_notANumber hF]
  · rw [hu, unpack_pack_infinite]
  · rw [hu, unpack_pack hcanonical]

theorem double_includes_single : double.Includes single := ⟨by decide, by decide, by decide⟩

theorem single_includes_half : single.Includes half := ⟨by decide, by decide, by decide⟩

end BinaryFormat

open BinaryFormat (double single half)

/-! ## Doubles -/

theorem unpackDouble_packDouble (u : Unpacked) :
    unpackDouble (packDouble u) = double.unpack (double.pack u) := by
  have hlt : double.pack u < 2 ^ 64 := BinaryFormat.pack_lt (by decide) u
  rw [packDouble, unpackDouble_ofBits, UInt64.toNat_ofNat', Nat.mod_eq_of_lt hlt]

/-- A double holds a number of at most 53 digits whose exponent is in range. -/
theorem unpackDouble_packDouble_finite {s : Bool} {m : ℕ} {e : ℤ} (hpos : 0 < m) (hlt : m < 2 ^ 53)
    (hlow : -1022 ≤ e) (hhigh : e ≤ 971) : unpackDouble (packDouble (.finite s m e)) =
      .finite s (m * 2 ^ (52 - m.log2)) (e - (52 - m.log2 : ℕ)) := by
  rw [unpackDouble_packDouble]
  exact BinaryFormat.unpack_pack_of_fits hpos
    ⟨hlt, hlow, hhigh.trans_lt (show (971 : ℤ) < -1074 + (2 ^ 11 - 2 : ℕ) by decide)⟩

/-! ## Singles -/

open Float.Model.UnpackedFloat (unpackExponent unpackMantissa packedNaN)
open Float.Model (Format)

theorem single_unpack_eq_notANumber {n : ℕ} : single.unpack n = .notANumber ↔
    n / 2 ^ 23 % 2 ^ 8 = 2 ^ 8 - 1 ∧ n % 2 ^ 23 ≠ 0 := by
  have hfields : single.unpack n =
      if n / 2 ^ 23 % 2 ^ 8 = 2 ^ 8 - 1 then
        if n % 2 ^ 23 = 0 then .infinite (n / 2 ^ 31 % 2 == 1) else .notANumber
      else if n / 2 ^ 23 % 2 ^ 8 = 0 then .finite (n / 2 ^ 31 % 2 == 1) (n % 2 ^ 23) (-149)
      else .finite (n / 2 ^ 31 % 2 == 1) (2 ^ 23 + n % 2 ^ 23)
        (-149 + (n / 2 ^ 23 % 2 ^ 8 - 1 : ℕ)) := rfl
  rw [hfields]
  by_cases hones : n / 2 ^ 23 % 2 ^ 8 = 2 ^ 8 - 1
  · rw [if_pos hones]
    by_cases hnone : n % 2 ^ 23 = 0
    · rw [if_pos hnone]
      exact iff_of_false nofun fun h => h.2 hnone
    · rw [if_neg hnone]
      exact iff_of_true rfl ⟨hones, hnone⟩
  · rw [if_neg hones]
    refine iff_of_false ?_ fun h => hones h.1
    split <;> nofun

/-- Among the bits that are no number, singles have one pattern only. -/
theorem valid_iff (w : UInt32) : Format.binary32.Valid w.toBitVec ↔
    (single.unpack w.toNat = .notANumber → w.toNat = single.pack .notANumber) := by
  have hexponent : (unpackExponent w.toBitVec : BitVec Format.binary32.exponentBits).toNat =
      w.toNat / 2 ^ 23 % 2 ^ 8 := by
    simp [unpackExponent, Nat.shiftRight_eq_div_pow]
  have hfraction : (unpackMantissa w.toBitVec :
      BitVec Format.binary32.mantissaBitsWithoutImplicit).toNat = w.toNat % 2 ^ 23 := by
    simp [unpackMantissa]
  have hones : (unpackExponent w.toBitVec : BitVec Format.binary32.exponentBits) = -1#8 ↔
      w.toNat / 2 ^ 23 % 2 ^ 8 = 2 ^ 8 - 1 := by
    rw [← BitVec.toNat_inj, ← hexponent]
    rfl
  have hnone : (unpackMantissa w.toBitVec :
      BitVec Format.binary32.mantissaBitsWithoutImplicit) = 0#23 ↔ w.toNat % 2 ^ 23 = 0 := by
    rw [← BitVec.toNat_inj, ← hfraction]
    rfl
  have hpattern : w.toBitVec = packedNaN Format.binary32 ↔
      w.toNat = single.pack .notANumber := by
    rw [← BitVec.toNat_inj]
    rfl
  rw [single_unpack_eq_notANumber, ← hones, ne_eq, ← hnone, ← hpattern, and_imp]
  exact ⟨fun h => h.eq_packedNaN, fun h => ⟨h⟩⟩

/-- A single is made of what it is read as. -/
theorem packSingle_unpackSingle (x : Float32) : packSingle (unpackSingle x) = x := by
  have hlt : x.toBits.toNat < 2 ^ (1 + 8 + 23) := x.toBits.toNat_lt
  have hbits : single.pack (unpackSingle x) = x.toBits.toNat := by
    unfold unpackSingle
    rcases BinaryFormat.unpack_cases (f := .single) (by decide) hlt with hnan | ⟨s, h, hbits⟩ |
      ⟨s, m, e, h, -, hbits⟩
    · rw [hnan]
      exact ((valid_iff x.toBits).mp x.toModel.valid hnan).symm
    · rw [h]
      exact hbits
    · rw [h]
      exact hbits
  rw [packSingle, hbits, UInt32.ofNat_toNat, Float32.ofBits_toBits]

/-- What is held by a single is read as it was packed. -/
theorem unpackSingle_packSingle {u : Unpacked} (h : single.Fits u) :
    unpackSingle (packSingle u) = single.unpack (single.pack u) := by
  have hlt : single.pack u < 2 ^ 32 := BinaryFormat.pack_lt (by decide) u
  have hvalid : Format.binary32.Valid (UInt32.ofNat (single.pack u)).toBitVec := by
    rw [valid_iff, UInt32.toNat_ofNat', Nat.mod_eq_of_lt hlt]
    intro hnan
    rw [← BinaryFormat.pack_unpack_pack single (by decide) (by decide) h, hnan]
  have hbits : (Float32.ofBits (UInt32.ofNat (single.pack u))).toBits =
      UInt32.ofNat (single.pack u) :=
    congrArg Float32.toBits (Float32.ofBits_toBits ⟨⟨UInt32.ofNat (single.pack u), hvalid⟩⟩)
  rw [packSingle, unpackSingle, hbits, UInt32.toNat_ofNat', Nat.mod_eq_of_lt hlt]

/-- Singles come back from doubles. -/
theorem narrow_widen (x : Float32) : narrow (widen x) = x := by
  have hlt : x.toBits.toNat < 2 ^ (1 + 8 + 23) := x.toBits.toNat_lt
  have hfits : double.Fits (unpackSingle x) :=
    BinaryFormat.double_includes_single.fits (by decide) hlt
  rw [narrow, widen, packSingle, unpackDouble_packDouble,
    BinaryFormat.pack_unpack_pack single (by decide) (by decide) hfits]
  exact packSingle_unpackSingle x

/-- What is rounded to a half is one. -/
theorem roundToHalf_roundToHalf (x : Float32) : roundToHalf (roundToHalf x) = roundToHalf x := by
  have hlt : half.pack (unpackSingle x) < 2 ^ (1 + 5 + 10) := BinaryFormat.pack_lt (by decide) _
  have hfits : single.Fits (half.unpack (half.pack (unpackSingle x))) :=
    BinaryFormat.single_includes_half.fits (by decide) hlt
  unfold roundToHalf
  rw [unpackSingle_packSingle hfits,
    BinaryFormat.pack_unpack_pack half (by decide) (by decide) hfits,
    BinaryFormat.unpack_pack_unpack (by decide) (by decide) hlt]

end HybridGraph.Number
