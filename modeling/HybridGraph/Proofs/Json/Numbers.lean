import Mathlib.Data.List.Basic
import Mathlib.Data.List.TakeWhile
import HybridGraph.Json.Printer
import HybridGraph.Proofs.Graph.Numerals
/-!
# Numbers in JSON text

A number is read up to a character that cannot belong to it, so what is read from a text is read
wherever the text stands before such a character:

    number? negative cs = some (j, tail) → Ends rest →
      number? negative (cs ++ rest) = some (j, tail ++ rest)                      (number?_append)

Whole numbers that fit a machine word are read as they were written, and a text of numerals holds
its number alone: `Numeral cs j` says that `cs` is read as `j`.

    -(2 ^ 63) ≤ n → n < 2 ^ 64 → Numeral (toString n).toList (.int n)             (numeral_toString)
    isNumeral cs → ofChars? cs = some j → Numeral cs j                         (numeral_of_ofChars?)
-/

namespace HybridGraph.Json

/-! ## Where a number ends -/

/-- The text does not go on with a character that could belong to a number. -/
def Ends (rest : List Char) : Prop :=
  ∀ c ∈ rest.head?, c.isDigit = false ∧ c ≠ '.' ∧ c ≠ 'e' ∧ c ≠ 'E'

theorem ends_nil : Ends [] := fun _ h => nomatch h

theorem ends_cons {c : Char} {rest : List Char} (hdigit : c.isDigit = false) (hpoint : c ≠ '.')
    (hlower : c ≠ 'e') (hupper : c ≠ 'E') : Ends (c :: rest) := by
  intro d hd
  obtain rfl := Option.mem_some.mp hd
  exact ⟨hdigit, hpoint, hlower, hupper⟩

variable {rest : List Char}

theorem Ends.takeWhile_append (h : Ends rest) (cs : List Char) :
    (cs ++ rest).takeWhile Char.isDigit = cs.takeWhile Char.isDigit := by
  induction cs with
  | nil =>
    cases rest with
    | nil => rfl
    | cons c rest => exact List.takeWhile_cons_of_neg (by simp [(h c rfl).1])
  | cons c cs ih => cases hc : c.isDigit <;> simp [hc, ih]

theorem Ends.dropWhile_append (h : Ends rest) (cs : List Char) :
    (cs ++ rest).dropWhile Char.isDigit = cs.dropWhile Char.isDigit ++ rest := by
  induction cs with
  | nil =>
    cases rest with
    | nil => rfl
    | cons c rest => exact List.dropWhile_cons_of_neg (by simp [(h c rfl).1])
  | cons c cs ih => cases hc : c.isDigit <;> simp [hc, ih]

/-- The digits of an exponent stand after its sign, if it has one. -/
theorem exponentPart?_cons (c : Char) (cs : List Char) :
    exponentPart? (c :: cs) =
      let body := if c = '-' ∨ c = '+' then cs else c :: cs
      if (body.takeWhile Char.isDigit).isEmpty then none
      else some (decide (c = '-'), Number.digitsValue (body.takeWhile Char.isDigit),
        body.dropWhile Char.isDigit) := by
  by_cases hminus : c = '-'
  · subst hminus
    rfl
  · by_cases hplus : c = '+'
    · subst hplus
      rfl
    · unfold exponentPart?
      simp [hminus, hplus]

theorem exponentPart?_append (hends : Ends rest) {cs tail : List Char} {down : Bool} {size : Nat}
    (h : exponentPart? cs = some (down, size, tail)) :
    exponentPart? (cs ++ rest) = some (down, size, tail ++ rest) := by
  cases cs with
  | nil => simp [exponentPart?] at h
  | cons c cs =>
    have hbody : (if c = '-' ∨ c = '+' then cs ++ rest else c :: (cs ++ rest)) =
        (if c = '-' ∨ c = '+' then cs else c :: cs) ++ rest := by
      split <;> rfl
    rw [exponentPart?_cons] at h
    rw [List.cons_append, exponentPart?_cons]
    dsimp only at h ⊢
    rw [hbody, hends.takeWhile_append, hends.dropWhile_append]
    generalize (if c = '-' ∨ c = '+' then cs else c :: cs) = body at h ⊢
    split at h
    · cases h
    · next hdigits =>
      simp only [Option.some.injEq, Prod.mk.injEq] at h
      obtain ⟨hdown, hsize, htail⟩ := h
      rw [if_neg hdigits, hdown, hsize, htail]

variable {negative : Bool} {word : Nat} {start : Int}

theorem withExponent?_of_ends {cs : List Char} (h : Ends cs) :
    withExponent? negative word start cs = some (scaled negative word start, cs) := by
  unfold withExponent?
  split
  · exact absurd rfl (h 'e' rfl).2.2.1
  · exact absurd rfl (h 'E' rfl).2.2.2
  · rfl

/-- A number whose exponent stands in the text after the mark. -/
def marked? (negative : Bool) (word : Nat) (start : Int) (part : List Char) :
    Option (Json × List Char) :=
  (exponentPart? part).map fun entry =>
    let size : Int := min entry.2.1 (Number.twoPow 31)
    (scaled negative word (if entry.1 then start - size else start + size), entry.2.2)

theorem marked?_append (hends : Ends rest) {part tail : List Char} {j : Json}
    (h : marked? negative word start part = some (j, tail)) :
    marked? negative word start (part ++ rest) = some (j, tail ++ rest) := by
  obtain ⟨⟨down, size, tail'⟩, hread, heq⟩ := Option.map_eq_some_iff.mp h
  obtain ⟨rfl, rfl⟩ := Prod.mk.inj heq
  unfold marked?
  rw [exponentPart?_append hends hread]
  rfl

theorem withExponent?_append (hends : Ends rest) {cs tail : List Char} {j : Json}
    (h : withExponent? negative word start cs = some (j, tail)) :
    withExponent? negative word start (cs ++ rest) = some (j, tail ++ rest) := by
  unfold withExponent? at h
  split at h
  · exact marked?_append hends h
  · exact marked?_append hends h
  · next hlower hupper =>
    obtain ⟨rfl, rfl⟩ := Prod.mk.inj (Option.some.inj h)
    cases cs with
    | nil => exact withExponent?_of_ends hends
    | cons c cs =>
      unfold withExponent?
      split
      · next heq => exact absurd (congrArg (· :: cs) (List.cons.inj heq).1) (hlower cs)
      · next heq => exact absurd (congrArg (· :: cs) (List.cons.inj heq).1) (hupper cs)
      · rfl

/-- The number once the digits of its whole part are known; `dropped` of them did not fit. -/
def withFraction? (negative : Bool) (word dropped : Nat) (cs : List Char) :
    Option (Json × List Char) :=
  match cs with
  | '.' :: cs =>
    let (word, taken, _) := takeDigits word 0 (cs.takeWhile Char.isDigit)
    if (cs.takeWhile Char.isDigit).isEmpty then none
    else withExponent? negative word ((dropped : Int) - taken) (cs.dropWhile Char.isDigit)
  | 'e' :: _ | 'E' :: _ => withExponent? negative word dropped cs
  | _ =>
    if dropped = 0 then some (wholeNumber negative word, cs)
    else some (scaled negative word dropped, cs)

theorem number?_eq (cs : List Char) :
    number? negative cs =
      let whole := cs.takeWhile Char.isDigit
      if whole.isEmpty || (whole.head? == some '0' && whole.length != 1) then none
      else withFraction? negative (takeDigits 0 0 whole).1 (takeDigits 0 0 whole).2.2
        (cs.dropWhile Char.isDigit) := rfl

theorem withFraction?_of_ends {dropped : Nat} {cs : List Char} (h : Ends cs) :
    withFraction? negative word dropped cs =
      some (if dropped = 0 then wholeNumber negative word else scaled negative word dropped,
        cs) := by
  unfold withFraction?
  split
  · exact absurd rfl (h '.' rfl).2.1
  · exact absurd rfl (h 'e' rfl).2.2.1
  · exact absurd rfl (h 'E' rfl).2.2.2
  · split <;> rfl

theorem withFraction?_append (hends : Ends rest) {dropped : Nat} {cs tail : List Char} {j : Json}
    (h : withFraction? negative word dropped cs = some (j, tail)) :
    withFraction? negative word dropped (cs ++ rest) = some (j, tail ++ rest) := by
  unfold withFraction? at h
  split at h
  · next fraction =>
    rw [List.cons_append, withFraction?, hends.takeWhile_append, hends.dropWhile_append]
    dsimp only at h ⊢
    split at h
    · cases h
    · next hfraction =>
      rw [if_neg hfraction]
      exact withExponent?_append hends h
  · exact withExponent?_append hends h
  · exact withExponent?_append hends h
  · next hpoint hlower hupper =>
    have hword : some (if dropped = 0 then wholeNumber negative word
        else scaled negative word dropped, cs) = some (j, tail) := by
      rw [← h]
      split <;> rfl
    obtain ⟨rfl, rfl⟩ := Prod.mk.inj (Option.some.inj hword)
    cases cs with
    | nil => exact withFraction?_of_ends hends
    | cons c cs =>
      unfold withFraction?
      split
      · next heq => exact absurd (congrArg (· :: cs) (List.cons.inj heq).1) (hpoint cs)
      · next heq => exact absurd (congrArg (· :: cs) (List.cons.inj heq).1) (hlower cs)
      · next heq => exact absurd (congrArg (· :: cs) (List.cons.inj heq).1) (hupper cs)
      · split <;> rfl

theorem number?_append (hends : Ends rest) {cs tail : List Char} {j : Json}
    (h : number? negative cs = some (j, tail)) :
    number? negative (cs ++ rest) = some (j, tail ++ rest) := by
  rw [number?_eq] at h ⊢
  rw [hends.takeWhile_append, hends.dropWhile_append]
  dsimp only at h ⊢
  split at h
  · cases h
  · next hdigits =>
    rw [if_neg hdigits]
    exact withFraction?_append hends h

/-! ## What is left -/

theorem suffix_of_exponentPart? {cs tail : List Char} {down : Bool} {size : Nat}
    (h : exponentPart? cs = some (down, size, tail)) : tail <:+ cs := by
  cases cs with
  | nil => simp [exponentPart?] at h
  | cons c cs =>
    rw [exponentPart?_cons] at h
    dsimp only at h
    have hbody : (if c = '-' ∨ c = '+' then cs else c :: cs) <:+ c :: cs := by
      split
      · exact List.suffix_cons c cs
      · exact List.suffix_rfl
    generalize (if c = '-' ∨ c = '+' then cs else c :: cs) = body at h hbody
    split at h
    · cases h
    · simp only [Option.some.injEq, Prod.mk.injEq] at h
      exact h.2.2 ▸ (List.dropWhile_suffix _).trans hbody

theorem suffix_of_marked? {part tail : List Char} {j : Json}
    (h : marked? negative word start part = some (j, tail)) : tail <:+ part := by
  obtain ⟨⟨down, size, tail'⟩, hread, heq⟩ := Option.map_eq_some_iff.mp h
  obtain ⟨rfl, rfl⟩ := Prod.mk.inj heq
  exact suffix_of_exponentPart? hread

theorem suffix_of_withExponent? {cs tail : List Char} {j : Json}
    (h : withExponent? negative word start cs = some (j, tail)) : tail <:+ cs := by
  unfold withExponent? at h
  split at h
  · exact (suffix_of_marked? h).trans (List.suffix_cons _ _)
  · exact (suffix_of_marked? h).trans (List.suffix_cons _ _)
  · obtain ⟨-, rfl⟩ := Prod.mk.inj (Option.some.inj h)
    exact List.suffix_rfl

theorem suffix_of_withFraction? {dropped : Nat} {cs tail : List Char} {j : Json}
    (h : withFraction? negative word dropped cs = some (j, tail)) : tail <:+ cs := by
  unfold withFraction? at h
  split at h
  · dsimp only at h
    split at h
    · cases h
    · exact (suffix_of_withExponent? h).trans
        ((List.dropWhile_suffix _).trans (List.suffix_cons _ _))
  · exact suffix_of_withExponent? h
  · exact suffix_of_withExponent? h
  · split at h <;> exact (Prod.mk.inj (Option.some.inj h)).2 ▸ List.suffix_rfl

/-- What is left after a number is a part of the text. -/
theorem suffix_of_number? {cs tail : List Char} {j : Json}
    (h : number? negative cs = some (j, tail)) : tail <:+ cs := by
  rw [number?_eq] at h
  dsimp only at h
  split at h
  · cases h
  · exact (suffix_of_withFraction? h).trans (List.dropWhile_suffix _)

/-! ## Whole numbers -/

theorem le_foldl_digits (cs : List Char) (word : Nat) :
    word ≤ cs.foldl (fun n c => 10 * n + (c.toNat - '0'.toNat)) word := by
  induction cs generalizing word with
  | nil => exact Nat.le_refl word
  | cons c cs ih =>
    have hnext := ih (10 * word + (c.toNat - '0'.toNat))
    rw [List.foldl_cons]
    omega

/-- All digits of a number that fits a word are taken. -/
theorem takeDigits_of_lt {cs : List Char} {word taken : Nat}
    (h : cs.foldl (fun n c => 10 * n + (c.toNat - '0'.toNat)) word < Number.twoPow 64) :
    takeDigits word taken cs =
      (cs.foldl (fun n c => 10 * n + (c.toNat - '0'.toNat)) word, taken + cs.length, 0) := by
  induction cs generalizing word taken with
  | nil => rfl
  | cons c cs ih =>
    rw [List.foldl_cons] at h
    have hfits := Nat.lt_of_le_of_lt (le_foldl_digits cs _) h
    rw [takeDigits, if_pos hfits, ih h, List.foldl_cons, List.length_cons, Nat.add_assoc,
      Nat.add_comm 1]

/-- Only zero starts with a zero. -/
theorem eq_zero_of_head?_toDigits (n : Nat) (h : (Nat.toDigits 10 n).head? = some '0') : n = 0 := by
  induction n using Nat.strongRecOn with
  | ind n ih =>
    by_cases hlt : n < 10
    · rw [Nat.toDigits_of_lt_base hlt] at h
      have hdigit : ∀ n < 10, [n.digitChar].head? = some '0' → n = 0 := by decide
      exact hdigit n hlt h
    · have hlead : (Nat.toDigits 10 n).head? = (Nat.toDigits 10 (n / 10)).head? := by
        rw [Nat.toDigits_of_base_le (by decide) (by omega)]
        exact List.head?_append_of_ne_nil _ Nat.toDigits_ne_nil
      have hzero := ih (n / 10) (by omega) (hlead ▸ h)
      omega

theorem number?_toDigits {n : Nat} (h : n < Number.twoPow 64) :
    number? negative (Nat.toDigits 10 n) = some (wholeNumber negative n, []) := by
  have hdigits : ∀ c ∈ Nat.toDigits 10 n, c.isDigit = true := fun _ hc =>
    Text.isDigit_of_mem_toDigits hc
  have htake : (Nat.toDigits 10 n).takeWhile Char.isDigit = Nat.toDigits 10 n :=
    List.takeWhile_eq_self_iff.mpr hdigits
  have hdrop : (Nat.toDigits 10 n).dropWhile Char.isDigit = [] :=
    List.dropWhile_eq_nil_iff.mpr hdigits
  have hvalue : (Nat.toDigits 10 n).foldl (fun n c => 10 * n + (c.toNat - '0'.toNat)) 0 = n :=
    Text.digitsValue_toDigits n
  have hlead : ((Nat.toDigits 10 n).head? == some '0' && (Nat.toDigits 10 n).length != 1) =
      false := by
    by_cases hzero : n = 0
    · subst hzero
      rfl
    · have hne : (Nat.toDigits 10 n).head? ≠ some '0' := fun h =>
        hzero (eq_zero_of_head?_toDigits n h)
      simp [hne]
  rw [number?_eq, htake, hdrop]
  dsimp only
  rw [hlead, takeDigits_of_lt (by rwa [hvalue]), hvalue, withFraction?_of_ends ends_nil]
  simp [Nat.toDigits_ne_nil]

/-! ## Numerals -/

/-- The characters that numbers are written with. -/
def isNumeral (c : Char) : Bool := c.isDigit || ['-', '+', '.', 'e'].contains c

theorem isNumeral_of_isDigit {c : Char} (h : c.isDigit = true) : isNumeral c = true := by
  rw [isNumeral, h, Bool.true_or]

/-- Reads a number with its sign. -/
def numeral? : List Char → Option (Json × List Char)
  | '-' :: cs => number? true cs
  | cs => number? false cs

/-- The text is made of numerals and read as the number. -/
structure Numeral (cs : List Char) (j : Json) : Prop where
  numerals : ∀ c ∈ cs, isNumeral c = true
  reads : numeral? cs = some (j, [])

theorem numeral?_of_ne {c : Char} (h : c ≠ '-') (cs : List Char) :
    numeral? (c :: cs) = number? false (c :: cs) := by
  unfold numeral?
  split
  · next heq => exact absurd (List.cons.inj heq).1 h
  · rfl

theorem numeral?_append (hends : Ends rest) {cs tail : List Char} {j : Json}
    (h : numeral? cs = some (j, tail)) : numeral? (cs ++ rest) = some (j, tail ++ rest) := by
  unfold numeral? at h
  split at h
  · exact number?_append hends h
  · next hminus =>
    cases cs with
    | nil => cases h
    | cons c cs =>
      rw [List.cons_append, numeral?_of_ne fun heq => hminus cs (heq ▸ rfl)]
      exact number?_append hends h

theorem suffix_of_numeral? {cs tail : List Char} {j : Json}
    (h : numeral? cs = some (j, tail)) : tail <:+ cs := by
  unfold numeral? at h
  split at h
  · exact (suffix_of_number? h).trans (List.suffix_cons _ _)
  · exact suffix_of_number? h

theorem isSpace_of_isNumeral {c : Char} (h : isNumeral c = true) : isSpace c = false := by
  rw [Bool.eq_false_iff]
  intro hspace
  simp only [isSpace, Bool.or_eq_true, beq_iff_eq] at hspace
  obtain ((rfl | rfl) | rfl) | rfl := hspace <;> cases h

/-- No other value starts with a numeral. -/
theorem value?_numeral {c : Char} (h : isNumeral c = true) (steps : Nat) (cs : List Char) :
    value? (steps + 1) (c :: cs) = numeral? (c :: cs) := by
  have hspace : skipSpace (c :: cs) = c :: cs :=
    List.dropWhile_cons_of_neg (by simp [isSpace_of_isNumeral h])
  have hother : ∀ {d : Char} {ds : List Char}, c :: cs = d :: ds → isNumeral d = true := by
    intro d ds heq
    exact (List.cons.inj heq).1 ▸ h
  rw [value?, hspace]
  split
  · next heq => cases hother heq
  · next heq => cases hother heq
  · next heq => cases hother heq
  · next heq => cases hother heq
  · next heq =>
    rw [heq]
    rfl
  · next heq => cases hother heq
  · next heq => cases hother heq
  · next hminus _ _ => exact (numeral?_of_ne (fun heq => hminus cs (heq ▸ rfl)) cs).symm

/-- A numeral is read as its number wherever it ends. -/
theorem Numeral.value?_append {cs : List Char} {j : Json} (h : Numeral cs j) (hends : Ends rest)
    (steps : Nat) : value? (steps + 1) (cs ++ rest) = some (j, rest) := by
  have hread := numeral?_append hends h.reads
  cases cs with
  | nil => cases h.reads
  | cons c cs => rwa [List.cons_append, value?_numeral (h.numerals c List.mem_cons_self)]

/-- Reads characters that hold one value. -/
def ofChars? (cs : List Char) : Option Json :=
  match value? (cs.length + 1) cs with
  | some (value, rest) => if (skipSpace rest).isEmpty then some value else none
  | none => none

/-- A text of numerals that holds a value is a numeral. -/
theorem numeral_of_ofChars? {cs : List Char} {j : Json} (hcs : ∀ c ∈ cs, isNumeral c = true)
    (h : ofChars? cs = some j) : Numeral cs j := by
  cases cs with
  | nil => cases h
  | cons c cs =>
    unfold ofChars? at h
    rw [value?_numeral (hcs c List.mem_cons_self)] at h
    split at h
    · next value tail hread =>
      split at h
      · next hblank =>
        obtain rfl := Option.some.inj h
        -- what is left is blank, but made of numerals
        have htail : tail = [] := by
          cases tail with
          | nil => rfl
          | cons d tail =>
            have hd := hcs d ((suffix_of_numeral? hread).subset List.mem_cons_self)
            simp [skipSpace, isSpace_of_isNumeral hd] at hblank
        exact ⟨hcs, htail ▸ hread⟩
      · cases h
    · cases h

theorem numerals_toString (n : Int) : ∀ c ∈ (toString n).toList, isNumeral c = true := by
  rw [Text.toList_toString_int]
  refine List.forall_mem_append.mpr ⟨?_, fun c hc =>
    isNumeral_of_isDigit (Text.isDigit_of_mem_toDigits hc)⟩
  split
  · decide
  · simp

/-- A whole number of a machine word is read as it was written. -/
theorem numeral_toString {n : Int} (hlow : -Number.twoPow 63 ≤ n) (hhigh : n < Number.twoPow 64) :
    Numeral (toString n).toList (.int n) := by
  refine ⟨numerals_toString n, ?_⟩
  have hword : n.natAbs < Number.twoPow 64 := by
    have hpow : Number.twoPow 63 < Number.twoPow 64 := by decide
    omega
  rw [Text.toList_toString_int]
  split
  · next hneg =>
    have hne : ¬(n.natAbs = 0 ∨ Number.twoPow 63 < n.natAbs) := by omega
    have hvalue : -(n.natAbs : Int) = n := by omega
    rw [List.singleton_append, numeral?, number?_toDigits hword, wholeNumber,
      if_neg (by decide), if_neg hne, hvalue]
  · next hpos =>
    have hvalue : (n.natAbs : Int) = n := by omega
    obtain ⟨c, cs, hcs, hminus, -⟩ := Text.exists_digit_cons n.natAbs
    rw [List.nil_append, hcs, numeral?_of_ne hminus, ← hcs, number?_toDigits hword, wholeNumber,
      if_pos (by decide), hvalue]

/-! ## Floats -/

open Number in
theorem numerals_decimalChars (layout : FloatLayout) (d : Decimal) :
    ∀ c ∈ layout.decimalChars d, isNumeral c = true := by
  have hkept : ∀ c ∈ dropTrailingZeros (digitChars d.digits), isNumeral c = true := fun c hc =>
    isNumeral_of_isDigit
      (isDigit_of_mem_dropTrailingZeros (fun _ hmem => Text.isDigit_of_mem_toDigits hmem) hc)
  have hpart : ∀ {ds : List Char}, ds ⊆ dropTrailingZeros (digitChars d.digits) →
      ∀ c ∈ ds, isNumeral c = true := fun hsub c hc => hkept c (hsub hc)
  have hzeros : ∀ n, ∀ c ∈ zeros n, isNumeral c = true := by
    intro n c hc
    rw [List.eq_of_mem_replicate hc]
    rfl
  have hexponent : ∀ n, ∀ c ∈ digitChars n, isNumeral c = true := fun n c hc =>
    isNumeral_of_isDigit (Text.isDigit_of_mem_toDigits hc)
  unfold FloatLayout.decimalChars
  dsimp only
  generalize d.exponent + ((digitChars d.digits).length - 1 : Nat) = k
  generalize dropTrailingZeros (digitChars d.digits) = kept at hkept hpart
  split
  · unfold positionalChars
    split
    · simp only [List.forall_mem_cons, List.forall_mem_append]
      exact ⟨rfl, rfl, hzeros _, hkept⟩
    · dsimp only
      split
      · simp only [List.forall_mem_append]
        refine ⟨⟨hkept, hzeros _⟩, ?_⟩
        split
        · decide
        · simp
      · simp only [List.forall_mem_cons, List.forall_mem_append]
        exact ⟨hpart (List.take_subset _ _), rfl, hpart (List.drop_subset _ _)⟩
  · unfold scientificChars
    simp only [List.forall_mem_cons, List.forall_mem_append]
    refine ⟨⟨hpart (List.take_subset _ _), ?_⟩, rfl, ?_, hexponent _⟩
    · split
      · simp
      · exact List.forall_mem_cons.mpr ⟨rfl, hpart (List.drop_subset _ _)⟩
    · split
      · decide
      · split
        · decide
        · simp

/-- What is read from the text of a float is its number. -/
theorem numeral_chars {layout : Number.FloatLayout} {f : Number.BinaryFormat} {u : Number.Unpacked}
    {j : Json} (h : ofChars? (layout.chars f u) = some j) : Numeral (layout.chars f u) j := by
  cases u with
  | notANumber => cases h
  | infinite negative => cases negative <;> cases h
  | finite negative m e =>
    refine numeral_of_ofChars? ?_ h
    refine List.forall_mem_append.mpr ⟨?_, numerals_decimalChars layout _⟩
    cases negative <;> decide

end HybridGraph.Json
