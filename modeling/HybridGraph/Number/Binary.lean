/-!
# Binary floating formats

A binary format stores a sign, an exponent and a fraction.  `BinaryFormat.unpack` reads stored
bits as `±m · 2^e`, and `BinaryFormat.pack` rounds any `±m · 2^e` to the nearest value of a format,
a tie going to the even one.  Every change of format in the library (`widen`, `narrow`,
`roundToHalf`, `ofInt`) and every passage to the integers (`truncate`) is an `unpack` followed by
exact integer arithmetic, so each of them can be reasoned about on `m` and `e`.
-/

namespace HybridGraph.Number

/-! ## Powers of the bases -/

/-- A power of two. -/
def twoPow (n : Nat) : Nat := Nat.pow 2 n

/-- A power of ten. -/
def tenPow (n : Nat) : Nat := Nat.pow 10 n

/-! ## Formats -/

/-- A binary format, given by the widths of its exponent and fraction fields. -/
structure BinaryFormat where
  exponentBits : Nat
  fractionBits : Nat

namespace BinaryFormat

/-- The 64-bit format. -/
def double : BinaryFormat := ⟨11, 52⟩

/-- The 32-bit format. -/
def single : BinaryFormat := ⟨8, 23⟩

/-- The 16-bit format. -/
def half : BinaryFormat := ⟨5, 10⟩

/-- Exponent of the last place of the smallest numbers. -/
def minExponent (f : BinaryFormat) : Int := 2 - twoPow (f.exponentBits - 1) - f.fractionBits

/-- The bits of positive infinity: exponent field all ones, fraction zero. -/
def infinityBits (f : BinaryFormat) : Nat := (twoPow f.exponentBits - 1) * twoPow f.fractionBits

/-- The bits of a lone sign. -/
def signBits (f : BinaryFormat) (negative : Bool) : Nat :=
  if negative then twoPow (f.exponentBits + f.fractionBits) else 0

end BinaryFormat

/-- A floating number taken apart; a finite one is `±mantissa · 2 ^ exponent`. -/
inductive Unpacked where
  | notANumber
  | infinite (negative : Bool)
  | finite (negative : Bool) (mantissa : Nat) (exponent : Int)

/-- `mantissa / 2 ^ places` rounded to an integer, a tie going to the even one. -/
def roundShift (mantissa places : Nat) : Nat :=
  let kept := mantissa / twoPow places
  let rest := mantissa % twoPow places
  if twoPow places < 2 * rest ∨ (twoPow places = 2 * rest ∧ kept % 2 = 1) then kept + 1 else kept

namespace BinaryFormat

/-- Reads the fields of stored bits. -/
def unpack (f : BinaryFormat) (bits : Nat) : Unpacked :=
  let fraction := bits % twoPow f.fractionBits
  let exponent := bits / twoPow f.fractionBits % twoPow f.exponentBits
  let negative := bits / twoPow (f.exponentBits + f.fractionBits) % 2 == 1
  if exponent = twoPow f.exponentBits - 1 then
    if fraction = 0 then .infinite negative else .notANumber
  else if exponent = 0 then
    .finite negative fraction f.minExponent
  else
    .finite negative (twoPow f.fractionBits + fraction) (f.minExponent + (exponent - 1 : Nat))

/-- Bits of the nearest number of the format to `mantissa · 2 ^ exponent`; what lies beyond the
largest number becomes infinity.  A significand that rounds up to the next power of two carries
into the exponent field by itself. -/
def packMagnitude (f : BinaryFormat) (mantissa : Nat) (exponent : Int) : Nat :=
  if mantissa = 0 then 0
  else
    let place := max (exponent + Nat.log2 mantissa - f.fractionBits) f.minExponent
    let significand :=
      if place ≤ exponent then mantissa * twoPow (exponent - place).toNat
      else roundShift mantissa (place - exponent).toNat
    min ((place - f.minExponent).toNat * twoPow f.fractionBits + significand) f.infinityBits

/-- Bits of the nearest number of the format, ties to even. -/
def pack (f : BinaryFormat) : Unpacked → Nat
  | .notANumber => f.infinityBits + twoPow (f.fractionBits - 1)
  | .infinite negative => f.signBits negative + f.infinityBits
  | .finite negative mantissa exponent => f.signBits negative + f.packMagnitude mantissa exponent

end BinaryFormat

/-! ## Doubles and singles -/

/-- A double taken apart. -/
def unpackDouble (x : Float) : Unpacked := BinaryFormat.double.unpack x.toBits.toNat

/-- The nearest double. -/
def packDouble (u : Unpacked) : Float := Float.ofBits (UInt64.ofNat (BinaryFormat.double.pack u))

/-- A single taken apart. -/
def unpackSingle (x : Float32) : Unpacked := BinaryFormat.single.unpack x.toBits.toNat

/-- The nearest single. -/
def packSingle (u : Unpacked) : Float32 :=
  Float32.ofBits (UInt32.ofNat (BinaryFormat.single.pack u))

/-- The double equal to a single. -/
def widen (x : Float32) : Float := packDouble (unpackSingle x)

/-- The single nearest to a double. -/
def narrow (x : Float) : Float32 := packSingle (unpackDouble x)

/-- A single rounded to the nearest number of the 16-bit format, ties to the even one, and back. -/
def roundToHalf (x : Float32) : Float32 :=
  packSingle (BinaryFormat.half.unpack (BinaryFormat.half.pack (unpackSingle x)))

/-- An integer taken apart. -/
def unpackInt (n : Int) : Unpacked := .finite (n < 0) n.natAbs 0

/-- The double nearest to an integer. -/
def ofInt (n : Int) : Float := packDouble (unpackInt n)

/-! ## Integral parts -/

/-- Integer part of a magnitude. -/
def wholePart (mantissa : Nat) (exponent : Int) : Nat :=
  if 0 ≤ exponent then mantissa * twoPow exponent.toNat else mantissa / twoPow (-exponent).toNat

/-- Whether a magnitude has digits after the binary point. -/
def hasFractionBits (mantissa : Nat) (exponent : Int) : Bool :=
  exponent < 0 && mantissa % twoPow (-exponent).toNat != 0

/-- An integer with the given sign. -/
def signed (negative : Bool) (n : Nat) : Int := if negative then -(n : Int) else n

/-- Truncates toward zero into the signed words of a width; what lies outside goes to the nearer
bound, and not-a-number goes to zero. -/
def truncate (bits : Nat) (x : Float) : Int :=
  let low : Int := -twoPow (bits - 1)
  let high : Int := twoPow (bits - 1) - 1
  match unpackDouble x with
  | .notANumber => 0
  | .infinite negative => if negative then low else high
  | .finite negative m e => max low (min high (signed negative (wholePart m e)))

/-- The largest integral double not above `x`. -/
def floor (x : Float) : Float :=
  match unpackDouble x with
  | .finite negative m e =>
    if 0 ≤ e then x
    else
      let away := if negative && hasFractionBits m e then 1 else 0
      packDouble (.finite negative (wholePart m e + away) 0)
  | _ => x

/-- The nearest integral double, a half going away from zero. -/
def roundHalfAway (x : Float) : Float :=
  match unpackDouble x with
  | .finite negative m e =>
    if 0 ≤ e then x
    else packDouble (.finite negative (wholePart (m + twoPow ((-e).toNat - 1)) e) 0)
  | _ => x

/-- Whether `x` differs from its integer part; infinities and not-a-number count as doing so. -/
def hasFraction (x : Float) : Bool :=
  match unpackDouble x with
  | .finite _ m e => hasFractionBits m e
  | _ => true

/-! ## Comparison that ignores not-a-number -/

/-- The larger operand; not-a-number gives way to the other one. -/
def larger (x y : Float) : Float :=
  if x.isNaN then y else if y.isNaN then x else if x < y then y else x

/-- The smaller operand; not-a-number gives way to the other one. -/
def smaller (x y : Float) : Float :=
  if x.isNaN then y else if y.isNaN then x else if y < x then y else x

/-- Negative infinity. -/
def negativeInfinity : Float := packDouble (.infinite true)

/-- Positive infinity. -/
def infinity : Float := packDouble (.infinite false)

end HybridGraph.Number
