import HybridGraph.Json.Basic
import HybridGraph.Number.Decimal
/-!
# JSON text, read

`parse?` reads one value and refuses anything but blanks after it.  A number without point and
exponent that fits a 64-bit word is whole; any other number is read as its leading digits, as many
as fit an unsigned word, scaled by one power of ten, so its last bit may differ from the nearest
double.  A number beyond the doubles becomes an infinity, which no reader of numbers accepts.
-/

namespace HybridGraph.Json

/-- The blanks of JSON text. -/
def isSpace (c : Char) : Bool := c == ' ' || c == '\n' || c == '\t' || c == '\r'

/-- Drops blanks at the front. -/
def skipSpace (cs : List Char) : List Char := cs.dropWhile isSpace

/-! ## Numbers -/

/-- Appends digits to a word while they fit; answers the word, how many were taken, and how many
were left. -/
def takeDigits (word taken : Nat) : List Char → Nat × Nat × Nat
  | [] => (word, taken, 0)
  | c :: rest =>
    let next := 10 * word + (c.toNat - '0'.toNat)
    if next < Number.twoPow 64 then takeDigits next (taken + 1) rest
    else (word, taken, rest.length + 1)

/-- Scales by a power of ten, the power rounded to a double.  Exponents below the table are
approached in steps of 10^308, which end in zero. -/
def scaleByTen : Nat → Float → Int → Float
  | 0, x, _ => x
  | steps + 1, x, exponent =>
    if exponent.natAbs ≤ 308 then
      let power := Number.ofDecimal false 1 exponent.natAbs
      if 0 ≤ exponent then x * power else x / power
    else if x == 0.0 then x
    else if 0 ≤ exponent then Number.infinity
    else scaleByTen steps (x / Number.ofDecimal false 1 308) (exponent + 308)

/-- A number from its sign, significant word and decimal exponent. -/
def scaled (negative : Bool) (word : Nat) (exponent : Int) : Json :=
  let x := scaleByTen 5 (Number.ofInt word) exponent
  .double (if negative then -x else x)

/-- Reads an exponent of which the mark has been read. -/
def exponentPart? (cs : List Char) : Option (Bool × Nat × List Char) :=
  let (negative, body) := match cs with
    | '-' :: rest => (true, rest)
    | '+' :: rest => (false, rest)
    | _ => (false, cs)
  let digits := body.takeWhile Char.isDigit
  if digits.isEmpty then none
  else some (negative, Number.digitsValue digits, body.dropWhile Char.isDigit)

/-- The number once its digits and exponents are known. -/
def withExponent? (negative : Bool) (word : Nat) (start : Int) (cs : List Char) :
    Option (Json × List Char) :=
  match cs with
  | 'e' :: rest | 'E' :: rest =>
    (exponentPart? rest).map fun (down, size, tail) =>
      let size : Int := min size (Number.twoPow 31)
      (scaled negative word (if down then start - size else start + size), tail)
  | _ => some (scaled negative word start, cs)

/-- A whole number without exponent; minus zero and what exceeds a signed word become doubles. -/
def wholeNumber (negative : Bool) (word : Nat) : Json :=
  if !negative then .int word
  else if word = 0 ∨ Number.twoPow 63 < word then .double (-(Number.ofInt word))
  else .int (-(word : Int))

/-- Reads a number of which the sign has been read. -/
def number? (negative : Bool) (cs : List Char) : Option (Json × List Char) :=
  let whole := cs.takeWhile Char.isDigit
  let tail := cs.dropWhile Char.isDigit
  if whole.isEmpty || (whole.head? == some '0' && whole.length != 1) then none
  else
    let (word, _, dropped) := takeDigits 0 0 whole
    match tail with
    | '.' :: rest =>
      let fraction := rest.takeWhile Char.isDigit
      let (word, taken, _) := takeDigits word 0 fraction
      if fraction.isEmpty then none
      else withExponent? negative word ((dropped : Int) - taken) (rest.dropWhile Char.isDigit)
    | 'e' :: _ | 'E' :: _ => withExponent? negative word dropped tail
    | _ =>
      if dropped = 0 then some (wholeNumber negative word, tail)
      else some (scaled negative word dropped, tail)

/-! ## Strings -/

/-- Value of a hexadecimal digit. -/
def hexValue? (c : Char) : Option Nat :=
  if c.isDigit then some (c.toNat - '0'.toNat)
  else if 'a' ≤ c ∧ c ≤ 'f' then some (c.toNat - 'a'.toNat + 10)
  else if 'A' ≤ c ∧ c ≤ 'F' then some (c.toNat - 'A'.toNat + 10)
  else none

/-- Four hexadecimal digits. -/
def hex4? : List Char → Option (Nat × List Char)
  | a :: b :: c :: d :: rest => do
    return (((((← hexValue? a) * 16 + (← hexValue? b)) * 16 + (← hexValue? c)) * 16
      + (← hexValue? d)), rest)
  | _ => none

/-- A `\u` escape of which the mark has been read; surrogates must come as a pair. -/
def unicodeEscape? (cs : List Char) : Option (Char × List Char) := do
  let (unit, rest) ← hex4? cs
  if 0xDC00 ≤ unit ∧ unit ≤ 0xDFFF then none
  else if 0xD800 ≤ unit ∧ unit ≤ 0xDBFF then
    match rest with
    | '\\' :: 'u' :: rest =>
      let (low, rest) ← hex4? rest
      if 0xDC00 ≤ low ∧ low ≤ 0xDFFF then
        return (Char.ofNat (0x10000 + (unit - 0xD800) * 0x400 + (low - 0xDC00)), rest)
      else none
    | _ => none
  else return (Char.ofNat unit, rest)

/-- A simple escape. -/
def simpleEscape? (c : Char) : Option Char :=
  if c == '"' || c == '\\' || c == '/' then some c
  else if c == 'b' then some (Char.ofNat 8)
  else if c == 'f' then some (Char.ofNat 12)
  else if c == 'n' then some '\n'
  else if c == 'r' then some '\r'
  else if c == 't' then some '\t'
  else none

/-- Reads a string whose opening quote has been read.  Every step uses up a character, so the
number of characters bounds the steps. -/
def stringBody? : Nat → String → List Char → Option (String × List Char)
  | 0, _, _ => none
  | _ + 1, _, [] => none
  | steps + 1, out, c :: rest =>
    if c == '"' then some (out, rest)
    else if c == '\\' then
      match rest with
      | [] => none
      | 'u' :: rest =>
        match unicodeEscape? rest with
        | some (c, rest) => stringBody? steps (out.push c) rest
        | none => none
      | e :: rest =>
        match simpleEscape? e with
        | some c => stringBody? steps (out.push c) rest
        | none => none
    else if c.toNat < 32 then none
    else stringBody? steps (out.push c) rest

/-! ## Values -/

mutual

/-- Reads a value at the front of a text.  Every step uses up a character. -/
def value? : Nat → List Char → Option (Json × List Char)
  | 0, _ => none
  | steps + 1, cs =>
    match skipSpace cs with
    | 'n' :: 'u' :: 'l' :: 'l' :: rest => some (.null, rest)
    | 't' :: 'r' :: 'u' :: 'e' :: rest => some (.bool true, rest)
    | 'f' :: 'a' :: 'l' :: 's' :: 'e' :: rest => some (.bool false, rest)
    | '"' :: rest => (stringBody? (rest.length + 1) "" rest).map fun (s, rest) => (.string s, rest)
    | '-' :: rest => number? true rest
    | '[' :: rest =>
      match skipSpace rest with
      | ']' :: rest => some (.array [], rest)
      | rest => items? steps [] rest
    | '\x7b' :: rest =>
      match skipSpace rest with
      | '\x7d' :: rest => some (.object [], rest)
      | rest => fields? steps [] rest
    | rest => number? false rest

/-- Reads the items of a list up to its closing bracket; `done` holds the earlier ones,
last first. -/
def items? : Nat → List Json → List Char → Option (Json × List Char)
  | 0, _, _ => none
  | steps + 1, done, cs =>
    match value? steps cs with
    | none => none
    | some (item, rest) =>
      match skipSpace rest with
      | ',' :: rest => items? steps (item :: done) rest
      | ']' :: rest => some (.array (item :: done).reverse, rest)
      | _ => none

/-- Reads the fields of an object up to its closing brace; `done` holds the earlier ones,
last first. -/
def fields? : Nat → List (String × Json) → List Char → Option (Json × List Char)
  | 0, _, _ => none
  | steps + 1, done, cs =>
    match skipSpace cs with
    | '"' :: rest =>
      match stringBody? (rest.length + 1) "" rest with
      | none => none
      | some (key, rest) =>
        match skipSpace rest with
        | ':' :: rest =>
          match value? steps rest with
          | none => none
          | some (value, rest) =>
            match skipSpace rest with
            | ',' :: rest => fields? steps ((key, value) :: done) rest
            | '\x7d' :: rest => some (.object ((key, value) :: done).reverse, rest)
            | _ => none
        | _ => none
    | _ => none

end

/-- Reads a text that holds one value. -/
def parse? (text : String) : Option Json :=
  let cs := text.toList
  match value? (cs.length + 1) cs with
  | some (value, rest) => if (skipSpace rest).isEmpty then some value else none
  | none => none

end HybridGraph.Json
