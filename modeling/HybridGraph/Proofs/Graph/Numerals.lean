import HybridGraph.Graph.Attr
import HybridGraph.Text.Literal
/-!
# Numbers, written and read

An integer in the range of its literals is read as it was written.  The literal of a double is made
of digits, signs, points and letters of its own (`Number.Literal`), one of them a point or a letter,
and so it is never read as an integer:

    n ≤ maxWord → nat? (toString n).toList = some n                                 (nat?_toString)
    minInt ≤ n → n ≤ maxInt → int? (toString n).toList = some n                     (int?_toString)
    int? (FloatLayout.literal.double x).toList = none                              (int?_literal)
-/

namespace HybridGraph

namespace Text

/-! ## Integers -/

/-- The characters that numbers are written with. -/
def isNumeral (c : Char) : Bool := c.isDigit || ['-', '.', 'e', 'i', 'n', 'f', 'N', 'a'].contains c

theorem isBlank_of_isNumeral {c : Char} (h : isNumeral c = true) : isBlank c = false := by
  simp only [isNumeral, Bool.or_eq_true, List.contains_iff_mem] at h
  rcases h with hdigit | hother
  · have hlow : 48 ≤ c.toNat := (Char.isDigit_iff_toNat.mp hdigit).1
    have hhigh : c.toNat ≤ 57 := (Char.isDigit_iff_toNat.mp hdigit).2
    simp only [isBlank, Bool.or_eq_false_iff, Bool.and_eq_false_iff, decide_eq_false_iff_not,
      beq_eq_false_iff_ne]
    omega
  · revert hother c
    decide

/-- A text of numerals is no word with another letter. -/
theorem ne_of_numerals {cs : List Char} (h : ∀ c ∈ cs, isNumeral c = true) {word : String}
    (hword : ∃ c ∈ word.toList, isNumeral c = false) : String.ofList cs ≠ word := by
  rintro rfl
  obtain ⟨c, hc, hnone⟩ := hword
  rw [String.toList_ofList] at hc
  rw [h c hc] at hnone
  cases hnone

theorem isDigit_of_mem_toDigits {n : Nat} {c : Char} (hc : c ∈ Nat.toDigits 10 n) :
    c.isDigit = true :=
  Nat.isDigit_of_mem_toDigits (by decide) (by decide) hc

theorem isNumeral_of_isDigit {c : Char} (h : c.isDigit = true) : isNumeral c = true := by
  rw [isNumeral, h, Bool.true_or]

theorem toList_toString_nat (n : Nat) : (toString n).toList = Nat.toDigits 10 n := by
  rw [Nat.toString_eq_repr, Nat.toList_repr]

theorem digitsValue_toDigits (n : Nat) : Number.digitsValue (Nat.toDigits 10 n) = n := by
  have hread := Nat.ofDigitChars_toDigits (n := n) (by decide : 1 < 10) (by decide)
  rwa [Nat.ofDigitChars_eq_foldl] at hread

theorem digits?_toDigits (n : Nat) : digits? (Nat.toDigits 10 n) = some n := by
  have hne : (Nat.toDigits 10 n).isEmpty = false := by simp [Nat.toDigits_ne_nil]
  have hall : (Nat.toDigits 10 n).all Char.isDigit = true :=
    List.all_eq_true.mpr fun _ hc => isDigit_of_mem_toDigits hc
  rw [digits?, hne, hall, digitsValue_toDigits]
  rfl

/-- Digits do not start with a sign. -/
theorem exists_digit_cons (n : Nat) :
    ∃ c cs, Nat.toDigits 10 n = c :: cs ∧ c ≠ '-' ∧ c ≠ '+' := by
  obtain ⟨c, cs, hcs⟩ := List.exists_cons_of_ne_nil (Nat.toDigits_ne_nil (n := n) (b := 10))
  have hdigit : c.isDigit = true := isDigit_of_mem_toDigits (hcs ▸ List.mem_cons_self)
  refine ⟨c, cs, hcs, ?_, ?_⟩ <;> rintro rfl <;> cases hdigit

theorem nat?_toString {n : Nat} (h : n ≤ maxWord) : nat? (toString n).toList = some n := by
  obtain ⟨c, cs, hcs, -, hplus⟩ := exists_digit_cons n
  have hdigits := digits?_toDigits n
  rw [hcs] at hdigits
  rw [toList_toString_nat, hcs]
  unfold nat?
  split
  · next heq => exact absurd (List.cons.inj heq).1 hplus
  · dsimp only
    rw [hdigits]
    simp [h]

/-- The digits of an integer, after a sign if it is negative. -/
theorem toList_toString_int (n : Int) : (toString n).toList =
    (if n < 0 then ['-'] else []) ++ Nat.toDigits 10 n.natAbs := by
  cases n with
  | ofNat m =>
    rw [if_neg (by simp)]
    exact Nat.toList_repr
  | negSucc m =>
    rw [if_pos (Int.negSucc_lt_zero m)]
    show ("-" ++ (m + 1).repr).toList = _
    rw [String.toList_append, Nat.toList_repr]
    rfl

theorem int?_toString {n : Int} (hlow : minInt ≤ n) (hhigh : n ≤ maxInt) :
    int? (toString n).toList = some n := by
  have hdigits := digits?_toDigits n.natAbs
  rw [toList_toString_int]
  split
  · next hneg =>
    have hvalue : -(n.natAbs : Int) = n := by omega
    rw [List.singleton_append, int?, hdigits]
    show (some (-(n.natAbs : Int))).filter (minInt ≤ ·) = some n
    rw [hvalue]
    simp [hlow]
  · next hpos =>
    obtain ⟨c, cs, hcs, hminus, hplus⟩ := exists_digit_cons n.natAbs
    have hvalue : (n.natAbs : Int) = n := by omega
    rw [hcs] at hdigits
    rw [List.nil_append, hcs]
    unfold int?
    split
    · next heq => exact absurd (List.cons.inj heq).1 hminus
    · next heq => exact absurd (List.cons.inj heq).1 hplus
    · rw [hdigits]
      show (some (n.natAbs : Int)).filter (· ≤ maxInt) = some n
      rw [hvalue]
      simp [hhigh]

/-- Numbers with a point or a letter are no integers. -/
theorem int?_eq_none {cs : List Char} {c : Char} (hc : c ∈ cs) (hdigit : c.isDigit = false)
    (hminus : c ≠ '-') (hplus : c ≠ '+') : int? cs = none := by
  have hdigits : ∀ {ds : List Char}, c ∈ ds → digits? ds = none := by
    intro ds hmem
    have hall : ds.all Char.isDigit = false := List.all_eq_false.mpr ⟨c, hmem, by simp [hdigit]⟩
    rw [digits?, hall, Bool.and_false]
    rfl
  unfold int?
  split
  · rw [hdigits ((List.mem_cons.mp hc).resolve_left hminus)]
    rfl
  · rw [hdigits ((List.mem_cons.mp hc).resolve_left hplus)]
    rfl
  · rw [hdigits hc]
    rfl

end Text

/-! ## Floats -/

namespace Number

open Text

/-- Numerals that are no integer. -/
structure Literal (cs : List Char) : Prop where
  numerals : ∀ c ∈ cs, isNumeral c = true
  fractional : ∃ c ∈ cs, c.isDigit = false ∧ c ≠ '-' ∧ c ≠ '+'

theorem isDigit_of_mem_dropTrailingZeros {digits : List Char} {c : Char}
    (h : ∀ c ∈ digits, c.isDigit = true) (hc : c ∈ dropTrailingZeros digits) :
    c.isDigit = true := by
  unfold dropTrailingZeros at hc
  dsimp only at hc
  split at hc
  · obtain rfl := List.mem_singleton.mp hc
    rfl
  · rw [List.mem_reverse] at hc
    exact h c (List.mem_reverse.mp ((List.dropWhile_sublist _).subset hc))

theorem literal_positionalChars {digits : List Char} (h : ∀ c ∈ digits, c.isDigit = true)
    (k : Int) : Literal (positionalChars true digits k) := by
  have hdigits : ∀ {ds : List Char}, ds ⊆ digits → ∀ c ∈ ds, isNumeral c = true :=
    fun hsub c hc => isNumeral_of_isDigit (h c (hsub hc))
  have hzeros : ∀ n, ∀ c ∈ zeros n, isNumeral c = true := by
    intro n c hc
    rw [List.eq_of_mem_replicate hc]
    rfl
  have hpoint : ∀ cs : List Char, '.' ∈ cs → ∃ c ∈ cs, c.isDigit = false ∧ c ≠ '-' ∧ c ≠ '+' :=
    fun cs hmem => ⟨'.', hmem, by decide⟩
  unfold positionalChars
  split
  · refine ⟨?_, hpoint _ (by simp)⟩
    simp only [List.forall_mem_cons, List.forall_mem_append]
    exact ⟨rfl, rfl, hzeros _, hdigits (List.Subset.refl _)⟩
  · dsimp only
    split
    · refine ⟨?_, hpoint _ (by simp)⟩
      simp only [if_true, List.forall_mem_append]
      exact ⟨⟨hdigits (List.Subset.refl _), hzeros _⟩, by decide⟩
    · refine ⟨?_, hpoint _ (by simp)⟩
      simp only [List.forall_mem_cons, List.forall_mem_append]
      exact ⟨hdigits (List.take_subset _ _), rfl, hdigits (List.drop_subset _ _)⟩

theorem literal_scientificChars {digits : List Char} (h : ∀ c ∈ digits, c.isDigit = true)
    (k : Int) : Literal (scientificChars false digits k) := by
  have hdigits : ∀ {ds : List Char}, ds ⊆ digits → ∀ c ∈ ds, isNumeral c = true :=
    fun hsub c hc => isNumeral_of_isDigit (h c (hsub hc))
  have hexponent : ∀ c ∈ digitChars k.natAbs, isNumeral c = true :=
    fun c hc => isNumeral_of_isDigit (isDigit_of_mem_toDigits hc)
  have hfraction : ∀ c ∈ (if (digits.drop 1).isEmpty then [] else '.' :: digits.drop 1),
      isNumeral c = true := by
    split
    · simp
    · exact List.forall_mem_cons.mpr ⟨rfl, hdigits (List.drop_subset _ _)⟩
  have hsign : ∀ c ∈ (if k < 0 then ['-'] else if false = true then ['+'] else []),
      isNumeral c = true := by
    split <;> simp
    rfl
  unfold scientificChars
  refine ⟨?_, 'e', by simp, by decide⟩
  simp only [List.forall_mem_cons, List.forall_mem_append]
  exact ⟨⟨hdigits (List.take_subset _ _), hfraction⟩, rfl, hsign, hexponent⟩

theorem literal_chars (f : BinaryFormat) (u : Unpacked) :
    Literal (FloatLayout.literal.chars f u) := by
  have hsigned : ∀ (negative : Bool) {cs : List Char}, Literal cs →
      Literal ((if negative then ['-'] else []) ++ cs) := by
    intro negative cs h
    obtain ⟨c, hc, hother⟩ := h.fractional
    refine ⟨List.forall_mem_append.mpr ⟨?_, h.numerals⟩, c, List.mem_append_right _ hc, hother⟩
    cases negative <;> decide
  cases u with
  | notANumber =>
    show Literal ['N', 'a', 'N']
    exact ⟨by decide, 'N', by decide⟩
  | infinite negative => exact hsigned negative ⟨by decide, 'i', by decide⟩
  | finite negative m e =>
    refine hsigned negative ?_
    have hdigits : ∀ c ∈ dropTrailingZeros (digitChars (shortest f m e).digits),
        c.isDigit = true := fun c hc =>
      isDigit_of_mem_dropTrailingZeros (fun _ hmem => isDigit_of_mem_toDigits hmem) hc
    unfold FloatLayout.decimalChars
    dsimp only
    split
    · exact literal_positionalChars hdigits _
    · exact literal_scientificChars hdigits _

theorem literal_double (x : Float) : Literal (FloatLayout.literal.double x).toList := by
  rw [FloatLayout.double, String.toList_ofList]
  exact literal_chars _ _

/-- No double is written like an integer. -/
theorem int?_literal (x : Float) : int? (FloatLayout.literal.double x).toList = none := by
  obtain ⟨c, hc, hdigit, hminus, hplus⟩ := (literal_double x).fractional
  exact int?_eq_none hc hdigit hminus hplus

end Number

end HybridGraph
