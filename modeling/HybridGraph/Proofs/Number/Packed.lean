import HybridGraph.Proofs.Number.Order
import Mathlib
/-!
# Doubles and their parts

The bits of a double are a sign, an exponent and a fraction.  `toModel.unpack` reads them as an
unpacked double, which arithmetic works on, and `unpackDouble` as sign, mantissa and exponent.  Both
read the same numbers, and what they read is canonical, so it survives packing:

    unpackDouble x = parts x.toModel.unpack                                     (unpackDouble_eq)
    Canonical u → settle u = u                                              (settle_of_canonical)
-/

namespace HybridGraph.Number

open Float.Model (UnpackedFloat)
open Float.Model.UnpackedFloat

/-! ## Fields -/

theorem toBitVec_ofBitVec (v : BitVec 1) : (Sign.ofBitVec v).toBitVec = v := by
  revert v
  decide

theorem ofBitVec_unpackSign (s : Sign) (e : BitVec 11) (m : BitVec 52) :
    Sign.ofBitVec (unpackSign (packComponents .binary64 s e m)) = s := by
  simp only [unpackSign, packComponents, BitVec.extractLsb]
  rw [BitVec.extractLsb'_append_eq_of_le (by omega),
    BitVec.extractLsb'_append_eq_of_le (by omega)]
  cases s <;> rfl

/-- Sixty-four bits are a sign, an exponent and a fraction. -/
theorem exists_packComponents (b : BitVec Float.Model.Format.binary64.numBits) :
    ∃ (s : Sign) (e : BitVec 11) (m : BitVec 52), packComponents .binary64 s e m = b := by
  refine ⟨Sign.ofBitVec (unpackSign b), unpackExponent b, unpackMantissa b, ?_⟩
  simp only [packComponents, toBitVec_ofBitVec, unpackSign, unpackExponent, unpackMantissa,
    BitVec.extractLsb]
  ext i hi
  grind

theorem toNat_packComponents (s : Sign) (e : BitVec 11) (m : BitVec 52) :
    (packComponents .binary64 s e m).toNat =
      s.toBitVec.toNat * 2 ^ 63 + e.toNat * 2 ^ 52 + m.toNat := by
  have he := e.isLt
  have hm := m.isLt
  show (s.toBitVec ++ e ++ m).toNat = _
  rw [BitVec.toNat_append, ← Nat.shiftLeft_add_eq_or_of_lt hm, BitVec.toNat_append,
    ← Nat.shiftLeft_add_eq_or_of_lt he, Nat.shiftLeft_eq, Nat.shiftLeft_eq]
  omega

theorem toNat_one_append (m : BitVec 52) : (1#1 ++ m).toNat = 2 ^ 52 + m.toNat := by
  rw [BitVec.toNat_append, ← Nat.shiftLeft_add_eq_or_of_lt m.isLt]
  rfl

theorem toNat_pos_of_ne {m : BitVec 52} (h : m ≠ 0#52) : 0 < m.toNat :=
  Nat.pos_of_ne_zero fun hzero => h (BitVec.toNat_inj.mp hzero)

/-- What the fields of a double say. -/
theorem unpack_packComponents (s : Sign) (e : BitVec 11) (m : BitVec 52) :
    unpack .binary64 (packComponents .binary64 s e m) =
      if e = -1#11 then if m = 0#52 then .infinity s else .notANumber
      else if e = 0#11 then
        if h : m = 0#52 then .zero s else .finite s m.toNat (-1074) (toNat_pos_of_ne h)
      else .finite s (2 ^ 52 + m.toNat) (e.toNat - 1075) (by omega) := by
  unfold unpack
  simp only [unpackMantissa_packComponents, unpackExponent_packComponents, ofBitVec_unpackSign]
  split
  · rfl
  · split
    · next he =>
      split
      · rfl
      · subst he
        rfl
    · simp only [toNat_one_append]
      rfl

/-- The fields of a number that has all its digits. -/
theorem fields_of_unpack {s t : Sign} {e : BitVec 11} {m : BitVec 52} {n : ℕ} {k : ℤ}
    {hn : 0 < n} (hfull : 2 ^ 52 ≤ n)
    (h : unpack .binary64 (packComponents .binary64 s e m) = .finite t n k hn) :
    s = t ∧ (e.toNat : ℤ) = k + 1075 ∧ m.toNat = n - 2 ^ 52 := by
  have hm := m.isLt
  rw [unpack_packComponents] at h
  split at h
  · split at h <;> cases h
  · split at h
    · split at h
      · cases h
      · obtain ⟨-, hmantissa, -⟩ := UnpackedFloat.finite.inj h
        omega
    · obtain ⟨hsign, hmantissa, hexponent⟩ := UnpackedFloat.finite.inj h
      exact ⟨hsign, by omega, by omega⟩

/-! ## Canonical forms -/

/-- An unpacked double that a double can hold: at most 53 digits, and fewer only at the smallest
exponent. -/
def Canonical : UnpackedFloat → Prop
  | .finite _ m e _ => m < 2 ^ 53 ∧ -1074 ≤ e ∧ e ≤ 971 ∧ (2 ^ 52 ≤ m ∨ e = -1074)
  | _ => True

variable {u : UnpackedFloat}

theorem canonical_unpack (b : BitVec Float.Model.Format.binary64.numBits) :
    Canonical (unpack .binary64 b) := by
  obtain ⟨s, e, m, rfl⟩ := exists_packComponents b
  have hm := m.isLt
  have he := e.isLt
  rw [unpack_packComponents]
  split
  · split <;> trivial
  · next hones =>
    have hlt : e.toNat ≠ 2047 := fun h => hones (BitVec.toNat_inj.mp h)
    split
    · split
      · trivial
      · exact ⟨by omega, by omega, by omega, .inr rfl⟩
    · next hzero =>
      have hpos : e.toNat ≠ 0 := fun h => hzero (BitVec.toNat_inj.mp h)
      exact ⟨by omega, by omega, by omega, .inl (by omega)⟩

theorem canonical_toModel (x : Float) : Canonical x.toModel.unpack := canonical_unpack _

/-- Digits and exponent of a canonical number are where rounding puts them. -/
theorem targetExponent_of_canonical {s : Sign} {m : ℕ} {e : ℤ} {hm : 0 < m}
    (h : Canonical (.finite s m e hm)) :
    Float.Model.Format.binary64.targetExponent (Float.Model.totalExponent m e) = e := by
  obtain ⟨hlt, hlow, hhigh, hfull⟩ := h
  have hlog : m.log2 < 53 := (Nat.log2_lt hm.ne').mpr hlt
  show max ((m.log2 : ℤ) + 1 + e - 53) (-1074) = e
  rcases hfull with hfull | rfl
  · have hlog' : 52 ≤ m.log2 := (Nat.le_log2 hm.ne').mpr hfull
    omega
  · omega

/-- What remains of an unpacked double that is packed. -/
def settle (u : UnpackedFloat) : UnpackedFloat := unpack .binary64 (pack .binary64 u)

/-- The fields of a normal number: the leading digit is not stored. -/
theorem unpack_normal (s : Sign) {m : ℕ} {e : ℤ} (hm : 0 < m) (hlarge : 2 ^ 52 ≤ m)
    (hlt : m < 2 ^ 53) (hlow : -1074 ≤ e) (hhigh : e ≤ 971) :
    unpack .binary64 (packComponents .binary64 s (BitVec.ofNat 11 (e + 1075).toNat)
      (BitVec.ofNat 52 m)) = .finite s m e hm := by
  have he : (BitVec.ofNat 11 (e + 1075).toNat).toNat = (e + 1075).toNat := by
    rw [BitVec.toNat_ofNat]
    omega
  have hdigits : (BitVec.ofNat 52 m).toNat = m - 2 ^ 52 := by
    rw [BitVec.toNat_ofNat]
    omega
  rw [unpack_packComponents, if_neg fun h => ?_, if_neg fun h => ?_]
  · have hmantissa : 2 ^ 52 + (m - 2 ^ 52) = m := by omega
    have hexponent : ((e + 1075).toNat : ℤ) - 1075 = e := by omega
    simp only [hdigits, he, hmantissa, hexponent]
  · have := congrArg BitVec.toNat h
    rw [he] at this
    simp at this
    omega
  · have := congrArg BitVec.toNat h
    rw [he] at this
    simp at this
    omega

/-- The fields of a subnormal number. -/
theorem unpack_subnormal (s : Sign) {m : ℕ} (hm : 0 < m) (hsmall : m < 2 ^ 52) :
    unpack .binary64 (packComponents .binary64 s 0#11 (BitVec.ofNat 52 m)) =
      .finite s m (-1074) hm := by
  have hdigits : (BitVec.ofNat 52 m).toNat = m := by
    rw [BitVec.toNat_ofNat]
    omega
  rw [unpack_packComponents, if_neg (by decide), if_pos rfl, dif_neg fun h => ?_]
  · simp only [hdigits]
  · have := congrArg BitVec.toNat h
    rw [hdigits] at this
    simp at this
    omega

theorem settle_of_canonical (h : Canonical u) : settle u = u := by
  cases u with
  | notANumber => rfl
  | infinity s => cases s <;> rfl
  | zero s => cases s <;> rfl
  | finite s m e hm =>
    obtain ⟨hlt, hlow, hhigh, hfull⟩ := h
    have hbiased : (e + Float.Model.Format.binary64.exponentBias +
        Float.Model.Format.binary64.mantissaBitsWithoutImplicit).toNat = (e + 1075).toNat := by
      show (e + (1023 : ℕ) + (52 : ℕ)).toNat = _
      omega
    have hlog : m.log2 < 53 := (Nat.log2_lt hm.ne').mpr hlt
    unfold settle pack
    simp only [hbiased]
    rw [if_neg (by show ¬ 2 ^ 11 ≤ _; omega)]
    split
    · next hnormal =>
      have hlog' : m.log2 + 1 = 53 := hnormal
      exact unpack_normal s hm ((Nat.le_log2 hm.ne').mp (by omega)) hlt hlow hhigh
    · next hsubnormal =>
      have hsmall : m < 2 ^ 52 := by
        by_contra hlarge
        have hlog' := (Nat.le_log2 hm.ne').mpr (Nat.le_of_not_lt hlarge)
        exact hsubnormal (show m.log2 + 1 = 53 by omega)
      obtain rfl := hfull.resolve_left (by omega)
      exact unpack_subnormal s hm hsmall

/-- Packing does not look at the sign. -/
theorem settle_neg (u : UnpackedFloat) : settle u.neg = (settle u).neg := by
  have hfields (s : Sign) (e : BitVec 11) (m : BitVec 52) :
      unpack .binary64 (packComponents .binary64 (-s) e m) =
        (unpack .binary64 (packComponents .binary64 s e m)).neg := by
    rw [unpack_packComponents, unpack_packComponents]
    split
    · split <;> rfl
    · split
      · split <;> rfl
      · rfl
  cases u with
  | notANumber => rfl
  | infinity s => exact hfields s _ _
  | zero s => exact hfields s _ _
  | finite s m e hm =>
    unfold settle UnpackedFloat.neg pack
    dsimp only
    split
    · exact hfields s _ _
    · split
      · exact hfields s _ _
      · exact hfields s _ _

/-! ## The two ways to take a double apart -/

/-- An unpacked double as sign, mantissa and exponent of stored bits. -/
def parts : UnpackedFloat → Unpacked
  | .notANumber => .notANumber
  | .infinity s => .infinite (s == .negative)
  | .zero s => .finite (s == .negative) 0 (-1074)
  | .finite s m e _ => .finite (s == .negative) m e

theorem double_unpack_eq (n : ℕ) : BinaryFormat.double.unpack n =
    if n / 2 ^ 52 % 2 ^ 11 = 2 ^ 11 - 1 then
      if n % 2 ^ 52 = 0 then .infinite (n / 2 ^ 63 % 2 == 1) else .notANumber
    else if n / 2 ^ 52 % 2 ^ 11 = 0 then .finite (n / 2 ^ 63 % 2 == 1) (n % 2 ^ 52) (-1074)
    else .finite (n / 2 ^ 63 % 2 == 1) (2 ^ 52 + n % 2 ^ 52)
      (-1074 + (n / 2 ^ 52 % 2 ^ 11 - 1 : ℕ)) := rfl

theorem double_unpack (b : BitVec Float.Model.Format.binary64.numBits) :
    BinaryFormat.double.unpack b.toNat = parts (unpack .binary64 b) := by
  obtain ⟨s, e, m, rfl⟩ := exists_packComponents b
  have hm := m.isLt
  have he := e.isLt
  have hs := s.toBitVec.isLt
  have hbits := toNat_packComponents s e m
  generalize hn : (packComponents .binary64 s e m).toNat = n at hbits ⊢
  have hfraction : n % 2 ^ 52 = m.toNat := by omega
  have hexponent : n / 2 ^ 52 % 2 ^ 11 = e.toNat := by omega
  have hsign : n / 2 ^ 63 % 2 = s.toBitVec.toNat := by omega
  have hnegative : (s.toBitVec.toNat == 1) = (s == .negative) := by cases s <;> rfl
  rw [double_unpack_eq, hfraction, hexponent, hsign, hnegative, unpack_packComponents]
  have hones : e = -1#11 ↔ e.toNat = 2 ^ 11 - 1 := BitVec.toNat_inj.symm
  have hzero : e = 0#11 ↔ e.toNat = 0 := BitVec.toNat_inj.symm
  have hnone : m = 0#52 ↔ m.toNat = 0 := BitVec.toNat_inj.symm
  simp only [hones, hzero, hnone]
  split
  · split <;> rfl
  · split
    · split
      · next h => rw [h]; rfl
      · rfl
    · next hpos =>
      have hplace : (-1074 + (e.toNat - 1 : ℕ) : ℤ) = e.toNat - 1075 := by omega
      rw [hplace]
      rfl

theorem unpackDouble_eq (x : Float) : unpackDouble x = parts x.toModel.unpack :=
  double_unpack _

/-- Bits are read as they were made into a double. -/
theorem unpackDouble_ofBits (w : UInt64) :
    unpackDouble (Float.ofBits w) = BinaryFormat.double.unpack w.toNat := by
  rw [unpackDouble_eq]
  show parts (settle (unpack .binary64 w.toBitVec)) = _
  rw [settle_of_canonical (canonical_unpack _)]
  exact (double_unpack _).symm

end HybridGraph.Number
