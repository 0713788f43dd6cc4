import HybridGraph.Json.Basic
import HybridGraph.Number.Binary
/-!
# Reading typed values from JSON

A record is an object, or an array of its fields in order.  Unknown fields are ignored and a known
one may occur once; in an object an optional field may be missing, in an array only a field with a
default may.  A variant is a string, or an object whose only key is the tag.
-/

namespace HybridGraph.Json

/-! ## Scalars -/

/-- A natural number up to a bound. -/
def nat? (bound : Nat) : Json → Option Nat
  | .int n => if 0 ≤ n ∧ n ≤ bound then some n.toNat else none
  | _ => none

/-- A 64-bit size. -/
def size? : Json → Option Nat := nat? (Number.twoPow 64 - 1)

/-- A 32-bit size. -/
def index? : Json → Option Nat := nat? (Number.twoPow 32 - 1)

/-- A byte. -/
def byte? (j : Json) : Option UInt8 := (nat? 255 j).map UInt8.ofNat

/-- A signed integer of the given width. -/
def int? (bits : Nat) : Json → Option Int
  | .int n => if -Number.twoPow (bits - 1) ≤ n ∧ n < Number.twoPow (bits - 1) then some n else none
  | _ => none

/-- A finite double; whole numbers are rounded to one. -/
def double? : Json → Option Float
  | .int n => some (Number.ofInt n)
  | .double x => if x.isFinite then some x else none
  | .single x => if x.isFinite then some (Number.widen x) else none
  | _ => none

/-- A single; wider numbers are rounded to one, and too large ones to infinity. -/
def single? : Json → Option Float32
  | .int n => some (Number.packSingle (Number.unpackInt n))
  | .double x => if x.isFinite then some (Number.narrow x) else none
  | .single x => if x.isFinite then some x else none
  | _ => none

/-- A truth value. -/
def bool? : Json → Option Bool
  | .bool b => some b
  | _ => none

/-- A string. -/
def string? : Json → Option String
  | .string s => some s
  | _ => none

/-- A list. -/
def list? {α : Type} (decode : Json → Option α) : Json → Option (List α)
  | .array items => items.mapM decode
  | _ => none

/-- A value, or null. -/
def option? {α : Type} (decode : Json → Option α) : Json → Option (Option α)
  | .null => some none
  | j => (decode j).map some

/-! ## Records -/

/-- The known fields of a record that are present; `named` when it was written as an object. -/
structure Record where
  fields : List (String × Json)
  named : Bool

/-- Reads a record with the given field names. -/
def record? (names : List String) : Json → Option Record
  | .object fields =>
    let known := fields.filter fun field => names.contains field.1
    if (known.map Prod.fst).Nodup then some ⟨known, true⟩ else none
  | .array items => if items.length ≤ names.length then some ⟨names.zip items, false⟩ else none
  | _ => none

namespace Record

/-- A field that must be present. -/
def required {α : Type} (r : Record) (name : String) (decode : Json → Option α) : Option α :=
  (r.fields.lookup name).bind decode

/-- A field that an object may leave out. -/
def optional {α : Type} (r : Record) (name : String) (decode : Json → Option α) :
    Option (Option α) :=
  match r.fields.lookup name with
  | some j => option? decode j
  | none => if r.named then some none else none

/-- A field with a default. -/
def defaulted {α : Type} (r : Record) (name : String) (default : α) (decode : Json → Option α) :
    Option α :=
  match r.fields.lookup name with
  | some j => decode j
  | none => some default

end Record

/-! ## Variants -/

/-- Tag and payload of a variant. -/
def variant? : Json → Option (String × Option Json)
  | .string tag => some (tag, none)
  | .object [(tag, payload)] => some (tag, some payload)
  | _ => none

/-- A variant without payload, looked up by its tag; a null payload counts as none. -/
def unit? {α : Type} (lookup : String → Option α) (j : Json) : Option α :=
  match variant? j with
  | some (tag, none) | some (tag, some .null) => lookup tag
  | _ => none

end HybridGraph.Json
