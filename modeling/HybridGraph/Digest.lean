import HybridGraph.Number.Binary
/-!
# Byte records and their digest

A record is written as bytes of fixed width, least significant first: sizes and 64-bit numbers take
eight bytes, variant tags four, and a text or list is preceded by its length.  `fnv1a` is the
64-bit FNV-1a hash of the bytes.
-/

namespace HybridGraph.Digest

/-- Bytes of a record. -/
abbrev Bytes := List UInt8

/-- The low `width` bytes of a number, least significant first. -/
def littleEndian : Nat → Nat → Bytes
  | 0, _ => []
  | width + 1, n => UInt8.ofNat (n % 256) :: littleEndian width (n / 256)

/-- An eight-byte word. -/
def word (n : Nat) : Bytes := littleEndian 8 n

/-- A four-byte word; variant tags are written so. -/
def tag (n : Nat) : Bytes := littleEndian 4 n

/-- A signed number in two's complement. -/
def signed (width : Nat) (n : Int) : Bytes :=
  littleEndian width (n % Number.twoPow (8 * width)).toNat

/-- A truth value. -/
def bool (b : Bool) : Bytes := [if b then 1 else 0]

/-- A double, by its bits. -/
def double (x : Float) : Bytes := word x.toBits.toNat

/-- A single, by its bits. -/
def single (x : Float32) : Bytes := tag x.toBits.toNat

/-- A text: its length in bytes and its bytes. -/
def text (s : String) : Bytes := word s.utf8ByteSize ++ s.toUTF8.toList

/-- A list: its length and its items. -/
def list {α : Type} (item : α → Bytes) (items : List α) : Bytes :=
  word items.length ++ items.flatMap item

/-- A presence byte and the value, if there is one. -/
def option {α : Type} (item : α → Bytes) : Option α → Bytes
  | none => [0]
  | some a => 1 :: item a

/-- The hash of no bytes. -/
def offsetBasis : UInt64 := 0xcbf29ce484222325

/-- The multiplier of the hash. -/
def prime : UInt64 := 0x100000001b3

/-- Takes one more byte into a hash. -/
def absorb (hash : UInt64) (byte : UInt8) : UInt64 := (hash ^^^ byte.toUInt64) * prime

/-- The 64-bit FNV-1a hash of bytes. -/
def fnv1a (bytes : Bytes) : UInt64 := bytes.foldl absorb offsetBasis

/-- A hash as sixteen hexadecimal digits. -/
def hex (hash : UInt64) : String :=
  let digits := Nat.toDigits 16 hash.toNat
  String.ofList (List.replicate (16 - digits.length) '0' ++ digits)

theorem fnv1a_append (a b : Bytes) : fnv1a (a ++ b) = b.foldl absorb (fnv1a a) := by
  simp [fnv1a, List.foldl_append]

end HybridGraph.Digest
