/-!
# JSON values

A value tree with its object fields in order.  Numbers keep their kind: whole numbers are exact,
the others are doubles or singles, which are written with their own shortest digits.
-/

namespace HybridGraph

/-- A JSON value. -/
inductive Json where
  | null
  | bool (value : Bool)
  | int (value : Int)
  | double (value : Float)
  | single (value : Float32)
  | string (value : String)
  | array (items : List Json)
  | object (fields : List (String × Json))

namespace Json

instance : Inhabited Json := ⟨.null⟩

/-- A natural number. -/
def nat (n : Nat) : Json := .int n

/-- A list of natural numbers. -/
def nats (ns : List Nat) : Json := .array (ns.map nat)

/-- A list of integers. -/
def ints (ns : List Int) : Json := .array (ns.map int)

/-- The value, or null. -/
def option {α : Type} (encode : α → Json) : Option α → Json
  | none => .null
  | some a => encode a

/-- A list. -/
def list {α : Type} (encode : α → Json) (items : List α) : Json := .array (items.map encode)

/-- A tagged value: an object whose only key is the tag. -/
def tagged (tag : String) (payload : Json) : Json := .object [(tag, payload)]

/-- How values are written as texts and texts are read as values. -/
structure Serializer where
  write : Json → String
  read : String → Option Json

/-- The first field of an object with the given name. -/
def field? (name : String) : Json → Option Json
  | .object fields => fields.lookup name
  | _ => none

end Json

end HybridGraph
