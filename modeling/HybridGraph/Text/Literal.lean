import HybridGraph.Number.Decimal
import HybridGraph.Text.Chars
/-!
# Number literals

Readers of the number literals that occur in graphs, specs and settings.  An integer is an
optional sign and digits, inside the bounds of its word; a float is an optional sign and `inf`,
`infinity`, `nan` in any case, or digits with at most one point and an optional exponent.
-/

namespace HybridGraph.Text

/-- Bounds of 64-bit words. -/
def maxWord : Nat := Number.twoPow 64 - 1

/-- Largest signed 64-bit integer. -/
def maxInt : Int := Number.twoPow 63 - 1

/-- Smallest signed 64-bit integer. -/
def minInt : Int := -Number.twoPow 63

/-- Decimal digits, at least one. -/
def digits? (cs : List Char) : Option Nat :=
  if !cs.isEmpty && cs.all Char.isDigit then some (Number.digitsValue cs) else none

/-- A natural number of at most 64 bits; a plus sign may stand in front. -/
def nat? (cs : List Char) : Option Nat :=
  let body := match cs with
    | '+' :: rest => rest
    | _ => cs
  (digits? body).filter (· ≤ maxWord)

/-- A signed 64-bit integer. -/
def int? (cs : List Char) : Option Int :=
  match cs with
  | '-' :: rest => ((digits? rest).map fun n => -(n : Int)).filter (minInt ≤ ·)
  | '+' :: rest => ((digits? rest).map fun n => (n : Int)).filter (· ≤ maxInt)
  | _ => ((digits? cs).map fun n => (n : Int)).filter (· ≤ maxInt)

/-- An exponent: the mark, an optional sign and digits; nothing at all is exponent zero. -/
def exponent? : List Char → Option Int
  | [] => some 0
  | mark :: rest =>
    if mark == 'e' || mark == 'E' then
      match rest with
      | '-' :: digits => (digits? digits).map fun n => -(n : Int)
      | '+' :: digits => (digits? digits).map fun n => (n : Int)
      | _ => (digits? rest).map fun n => (n : Int)
    else none

/-- A float without its sign. -/
def magnitude? (negative : Bool) (cs : List Char) : Option Float :=
  let word := lowerAscii cs
  if word == "inf".toList || word == "infinity".toList then
    some (if negative then Number.negativeInfinity else Number.infinity)
  else if word == "nan".toList then
    some (Number.packDouble .notANumber)
  else
    let whole := cs.takeWhile Char.isDigit
    let (fraction, tail) := match cs.dropWhile Char.isDigit with
      | '.' :: rest => (rest.takeWhile Char.isDigit, rest.dropWhile Char.isDigit)
      | rest => ([], rest)
    if whole.isEmpty && fraction.isEmpty then none
    else (exponent? tail).map fun e =>
      Number.ofDecimal negative (Number.digitsValue (whole ++ fraction)) (e - fraction.length)

/-- A float, rounded to the nearest double. -/
def float? (cs : List Char) : Option Float :=
  match cs with
  | '-' :: rest => magnitude? true rest
  | '+' :: rest => magnitude? false rest
  | _ => magnitude? false cs

end HybridGraph.Text
