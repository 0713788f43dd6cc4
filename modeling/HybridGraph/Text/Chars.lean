/-!
# Pieces of text

Texts are cut up as lists of characters.  Blank characters are those with the Unicode property
`White_Space`; letter case is folded on ASCII only.  In texts for people lists stand in brackets.
-/

namespace HybridGraph.Text

/-- Characters with the Unicode property `White_Space`. -/
def isBlank (c : Char) : Bool :=
  let n := c.toNat
  (9 ≤ n && n ≤ 13) || n == 0x20 || n == 0x85 || n == 0xA0 || n == 0x1680 ||
    (0x2000 ≤ n && n ≤ 0x200A) || n == 0x2028 || n == 0x2029 || n == 0x202F || n == 0x205F ||
    n == 0x3000

/-- Every blank of the core library is one here. -/
theorem isBlank_of_isWhitespace {c : Char} (h : c.isWhitespace = true) : isBlank c = true := by
  simp only [Char.isWhitespace, Bool.or_eq_true, decide_eq_true_eq] at h
  rcases h with ((h | h) | h) | h <;> subst h <;> decide

/-- What holds of all characters of a text is decided by going through the text. -/
instance decidableForallMem {p : Char → Prop} [DecidablePred p] (cs : List Char) :
    Decidable (∀ c ∈ cs, p c) := List.decidableBAll p cs

/-- Drops blanks at the front. -/
def trimLeft (cs : List Char) : List Char := cs.dropWhile isBlank

/-- Drops blanks at the end. -/
def trimRight (cs : List Char) : List Char := (cs.reverse.dropWhile isBlank).reverse

/-- Drops blanks at both ends. -/
def trim (cs : List Char) : List Char := trimRight (trimLeft cs)

/-- What stands before and after the first `c`. -/
def splitFirst (c : Char) : List Char → Option (List Char × List Char)
  | [] => none
  | x :: rest =>
    if x == c then some ([], rest)
    else (splitFirst c rest).map fun (before, after) => (x :: before, after)

/-- The pieces between the occurrences of `c`; there is always one. -/
def splitAll (c : Char) : List Char → List (List Char)
  | [] => [[]]
  | x :: rest =>
    match splitAll c rest with
    | [] => [[]]
    | piece :: pieces => if x == c then [] :: piece :: pieces else (x :: piece) :: pieces

/-- Drops one carriage return at the end. -/
def dropCarriageReturn (cs : List Char) : List Char :=
  if cs.getLast? == some '\r' then cs.dropLast else cs

/-- The lines of a text; a line break at the very end opens no further line. -/
def lines (cs : List Char) : List (List Char) :=
  let pieces := splitAll '\n' cs
  let closed := pieces.dropLast.map dropCarriageReturn
  match pieces.getLast? with
  | some [] | none => closed
  | some last => closed ++ [last]

/-- Folds upper-case ASCII letters. -/
def lowerAscii (cs : List Char) : List Char := cs.map Char.toLower

/-- A token as tables list it: trimmed and in lower case. -/
def foldToken (text : String) : String := String.ofList (lowerAscii (trim text.toList))

/-- What follows `front` in a text that starts with it. -/
def dropFront? : List Char → List Char → Option (List Char)
  | [], cs => some cs
  | _ :: _, [] => none
  | f :: front, c :: cs => if f == c then dropFront? front cs else none

/-- What comes before `back` in a text that ends with it. -/
def dropBack? (back cs : List Char) : Option (List Char) :=
  (dropFront? back.reverse cs.reverse).map List.reverse

theorem dropFront?_eq_some_iff {front cs rest : List Char} :
    dropFront? front cs = some rest ↔ cs = front ++ rest := by
  induction front generalizing cs with
  | nil => simp [dropFront?, eq_comm]
  | cons f front ih =>
    cases cs with
    | nil => simp [dropFront?]
    | cons c cs =>
      by_cases h : f = c
      · simp [dropFront?, h, ih]
      · simp [dropFront?, h, Ne.symm h]

/-- What stands between an opening and a closing character at the ends of a text. -/
def unwrap? (opening closing : Char) (cs : List Char) : Option (List Char) :=
  match cs with
  | [] => none
  | c :: rest =>
    if c == opening && rest.getLast? == some closing then some rest.dropLast else none

/-! ## Lists in messages -/

/-- Items in brackets, separated by a comma and a blank. -/
def bracketed {α : Type} (item : α → String) (items : List α) : String :=
  "[" ++ ", ".intercalate (items.map item) ++ "]"

/-- A list of natural numbers in brackets. -/
def natList (ns : List Nat) : String := bracketed toString ns

/-- A list of integers in brackets. -/
def intList (ns : List Int) : String := bracketed toString ns

end HybridGraph.Text
