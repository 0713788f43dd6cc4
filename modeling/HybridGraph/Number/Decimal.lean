import HybridGraph.Number.Binary
/-!
# Decimal texts of floating numbers

`shortest` finds the fewest decimal digits that still round to a given binary number: it walks the
decimal grids from coarse to fine and stops at the first that has a point in the interval of
values rounding to the number; of two such points it takes the nearer.  `FloatLayout` says how the
digits are laid out, `FloatLayout.chars` writes them, and `ofDecimal` reads a decimal back with one
rounding.
-/

namespace HybridGraph.Number

/-- The number `digits · 10 ^ exponent`. -/
structure Decimal where
  digits : Nat
  exponent : Int

/-! ## Shortest digits -/

/-- `⌊log10 (m · 2 ^ e)⌋` for `0 < m`: the estimate from the binary logarithm is at most two too
small and never too large. -/
def decimalMagnitude (m : Nat) (e : Int) : Int :=
  let estimate := ((Nat.log2 m + e) * 1233).fdiv 4096 - 1
  let reaches (k : Int) : Bool :=
    tenPow k.toNat * twoPow (-e).toNat ≤ m * twoPow e.toNat * tenPow (-k).toNat
  if reaches (estimate + 2) then estimate + 2
  else if reaches (estimate + 1) then estimate + 1 else estimate

/-- The point of the grid `10 ^ place` that rounds to `m · 2 ^ e`, if there is one.  Both sides of
every comparison are brought to a common denominator, in quarters of the last binary place. -/
def gridPoint? (f : BinaryFormat) (m : Nat) (e place : Int) : Option Decimal :=
  let quarters (n : Nat) : Nat := n * twoPow (e - 2).toNat * tenPow (-place).toNat
  let point (d : Nat) : Nat := d * tenPow place.toNat * twoPow (2 - e).toNat
  let gapBelow := if m = twoPow f.fractionBits ∧ f.minExponent < e then 1 else 2
  let value := quarters (4 * m)
  let low := quarters (4 * m - gapBelow)
  let high := quarters (4 * m + 2)
  let inside (d : Nat) : Bool :=
    if m % 2 = 0 then low ≤ point d ∧ point d ≤ high else low < point d ∧ point d < high
  let below := value / point 1
  if inside below && (!inside (below + 1) || value - point below ≤ point (below + 1) - value) then
    some ⟨below, place⟩
  else if inside (below + 1) then some ⟨below + 1, place⟩
  else none

/-- The shortest decimal that rounds to `m · 2 ^ e`; seventeen digits always suffice. -/
def shortest (f : BinaryFormat) (m : Nat) (e : Int) : Decimal :=
  if m = 0 then ⟨0, 0⟩
  else
    let top := decimalMagnitude m e
    ((List.range 18).findSome? fun i => gridPoint? f m e (top - (i : Nat))).getD ⟨m, e⟩

/-! ## Layout -/

/-- How digits are laid out: `positional k` says whether a number `d.ddd · 10 ^ k` is written
without an exponent, `keepPoint` whether an integral one then ends in `.0`, and `signedExponent`
whether a positive exponent carries a plus sign. -/
structure FloatLayout where
  positional : Int → Bool
  keepPoint : Bool
  signedExponent : Bool

/-- Full form: exponents from 10^-4 to 10^15 are written out, `1e16` and `1e-5` are not. -/
def FloatLayout.literal : FloatLayout := ⟨fun k => -4 ≤ k && k ≤ 15, true, false⟩

/-- Plain form: never an exponent, and no point on an integral number. -/
def FloatLayout.plain : FloatLayout := ⟨fun _ => true, false, false⟩

/-- Scientific form: always an exponent. -/
def FloatLayout.scientific : FloatLayout := ⟨fun _ => false, false, false⟩

/-- Doubles in JSON text: exponents from 10^-5 to 10^15 are written out. -/
def FloatLayout.jsonDouble : FloatLayout := ⟨fun k => -5 ≤ k && k ≤ 15, true, true⟩

/-- Singles in JSON text: exponents from 10^-6 to 10^12 are written out. -/
def FloatLayout.jsonSingle : FloatLayout := ⟨fun k => -6 ≤ k && k ≤ 12, true, true⟩

/-- Decimal digits of a number. -/
def digitChars (n : Nat) : List Char := Nat.toDigits 10 n

/-- `0`, repeated. -/
def zeros (n : Nat) : List Char := List.replicate n '0'

/-- Digits without an exponent; `k` is the exponent of the leading digit. -/
def positionalChars (keepPoint : Bool) (digits : List Char) (k : Int) : List Char :=
  if k < 0 then '0' :: '.' :: (zeros (-k - 1).toNat ++ digits)
  else
    let whole := k.toNat + 1
    if digits.length ≤ whole then
      digits ++ zeros (whole - digits.length) ++ (if keepPoint then ['.', '0'] else [])
    else digits.take whole ++ '.' :: digits.drop whole

/-- Digits with an exponent. -/
def scientificChars (signedExponent : Bool) (digits : List Char) (k : Int) : List Char :=
  let sign := if k < 0 then ['-'] else if signedExponent then ['+'] else []
  let fraction := digits.drop 1
  digits.take 1 ++ (if fraction.isEmpty then [] else '.' :: fraction) ++
    'e' :: (sign ++ digitChars k.natAbs)

/-- Digits without the zeros at their end. -/
def dropTrailingZeros (digits : List Char) : List Char :=
  let kept := (digits.reverse.dropWhile (· == '0')).reverse
  if kept.isEmpty then ['0'] else kept

/-- Writes a decimal. -/
def FloatLayout.decimalChars (layout : FloatLayout) (d : Decimal) : List Char :=
  let digits := digitChars d.digits
  let k := d.exponent + (digits.length - 1 : Nat)
  let kept := dropTrailingZeros digits
  if layout.positional k then positionalChars layout.keepPoint kept k
  else scientificChars layout.signedExponent kept k

/-- Writes a number taken apart, with the shortest digits of its format. -/
def FloatLayout.chars (layout : FloatLayout) (f : BinaryFormat) : Unpacked → List Char
  | .notANumber => ['N', 'a', 'N']
  | .infinite negative => (if negative then ['-'] else []) ++ ['i', 'n', 'f']
  | .finite negative m e =>
    (if negative then ['-'] else []) ++ layout.decimalChars (shortest f m e)

/-- Writes a double. -/
def FloatLayout.double (layout : FloatLayout) (x : Float) : String :=
  String.ofList (layout.chars .double (unpackDouble x))

/-- Writes a single. -/
def FloatLayout.single (layout : FloatLayout) (x : Float32) : String :=
  String.ofList (layout.chars .single (unpackSingle x))

/-! ## Reading -/

/-- The double nearest to `±digits · 10 ^ exponent`.  Exponents that put the number beyond every
finite double, or below half the smallest one, are answered without computing the power. -/
def ofDecimal (negative : Bool) (digits : Nat) (exponent : Int) : Float :=
  let magnitude : Float :=
    if digits = 0 then 0.0
    else if 400 < exponent then infinity
    else if exponent + Nat.log2 digits + 1 < -400 then 0.0
    else Float.ofScientific digits (exponent < 0) exponent.natAbs
  if negative then -magnitude else magnitude

/-- Value of decimal digits, most significant first. -/
def digitsValue (digits : List Char) : Nat :=
  digits.foldl (fun n c => 10 * n + (c.toNat - '0'.toNat)) 0

end HybridGraph.Number
