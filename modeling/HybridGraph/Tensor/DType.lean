import HybridGraph.Text.Chars
/-!
# Element types

The scalar types of tensor elements, with their spellings in texts and in stored records.
-/

namespace HybridGraph

/-- A scalar element type. -/
inductive DType where
  | f32 | f16 | f64 | i8 | i32 | i64 | bool
deriving DecidableEq

namespace DType

/-- Every element type, in the order of the stored tags. -/
def all : List DType := [.f32, .f16, .f64, .i8, .i32, .i64, .bool]

/-- The floating types. -/
def isFloat : DType → Bool
  | .f32 | .f16 | .f64 => true
  | _ => false

/-- The integer types; truth values are not among them. -/
def isInteger : DType → Bool
  | .i8 | .i32 | .i64 => true
  | _ => false

/-- The 64-bit types, which engines refuse unless values are truncated. -/
def isWide : DType → Bool
  | .f64 | .i64 => true
  | _ => false

/-- The 32-bit counterpart of a 64-bit type; the others stay. -/
def truncated : DType → DType
  | .f64 => .f32
  | .i64 => .i32
  | t => t

/-- Bytes per element. -/
def byteSize : DType → Nat
  | .i8 | .bool => 1
  | .f16 => 2
  | .f32 | .i32 => 4
  | .f64 | .i64 => 8

/-- The element type that a traced program's integer code names. -/
def ofScalarCode? (code : Int) : Option DType :=
  if code = 1 then some .i8
  else if code = 3 then some .i32
  else if code = 4 then some .i64
  else if code = 5 then some .f16
  else if code = 6 then some .f32
  else if code = 7 then some .f64
  else if code = 11 then some .bool
  else none

/-- The short spelling. -/
def name : DType → String
  | .f32 => "f32"
  | .f16 => "f16"
  | .f64 => "f64"
  | .i8 => "i8"
  | .i32 => "i32"
  | .i64 => "i64"
  | .bool => "bool"

/-- The tag in stored records. -/
def tag : DType → String
  | .f32 => "F32"
  | .f16 => "F16"
  | .f64 => "F64"
  | .i8 => "I8"
  | .i32 => "I32"
  | .i64 => "I64"
  | .bool => "Bool"

/-- The number of a tag in byte records. -/
def index : DType → Nat
  | .f32 => 0
  | .f16 => 1
  | .f64 => 2
  | .i8 => 3
  | .i32 => 4
  | .i64 => 5
  | .bool => 6

/-- The element type of a tag. -/
def ofTag? (tag : String) : Option DType := all.find? (·.tag == tag)

/-- The accepted spellings of each element type. -/
def spellings : List (DType × List String) :=
  [ (.f32, ["float", "float32", "f32", "fp32"]),
    (.f16, ["half", "float16", "f16", "fp16"]),
    (.f64, ["double", "float64", "f64", "fp64"]),
    (.i8, ["char", "int8", "i8"]),
    (.i32, ["int", "int32", "i32"]),
    (.i64, ["long", "int64", "i64"]),
    (.bool, ["bool", "b"]) ]

/-- Reads a spelling, blanks around it and letter case aside. -/
def ofText? (text : String) : Option DType :=
  (spellings.find? fun entry => entry.2.contains (Text.foldToken text)).map Prod.fst

end DType

end HybridGraph
