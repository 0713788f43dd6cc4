import HybridGraph.Tensor.DType
import HybridGraph.Tensor.Shape
import HybridGraph.Text.Literal
/-!
# Input contracts

The declared contract of one graph input: shape, element type and memory layout.  Its text is
`(3,3,32,32)@f16%nhwc` or `[(1,4);(2,4);(8,4)]@f32`; the parts from `@` and from `%` on may be left
out.  `InputSpec.parse` reads what `InputSpec.text` writes.
-/

namespace HybridGraph

/-- The memory layout declared for an input. -/
inductive TensorFormat where
  | contiguous | channelsLast | unknown
deriving DecidableEq

namespace TensorFormat

/-- Every layout. -/
def all : List TensorFormat := [.contiguous, .channelsLast, .unknown]

/-- The tag in stored records. -/
def tag : TensorFormat → String
  | .contiguous => "Contiguous"
  | .channelsLast => "ChannelsLast"
  | .unknown => "Unknown"

/-- The layout of a tag. -/
def ofTag? (tag : String) : Option TensorFormat := all.find? (·.tag == tag)

/-- The accepted spellings of each layout. -/
def spellings : List (TensorFormat × List String) :=
  [ (.contiguous, ["linear", "nchw", "chw", "contiguous"]),
    (.channelsLast, ["nhwc", "hwc", "channels_last", "channel_last"]),
    (.unknown, ["unknown"]) ]

/-- Reads a spelling, blanks around it and letter case aside. -/
def ofText? (text : String) : Option TensorFormat :=
  (spellings.find? fun entry => entry.2.contains (Text.foldToken text)).map Prod.fst

/-- How a layout ends the text of an input contract. -/
def suffix : TensorFormat → String
  | .contiguous => ""
  | .channelsLast => "%nhwc"
  | .unknown => "%unknown"

end TensorFormat

/-- Why the text of a contract, a type or a layout is refused. -/
inductive SpecError where
  | unknownDType (token : String)
  | unknownFormat (token : String)
  | malformed (text : String)
  | rangeArity (found : Nat)
  | range (cause : RangeError)
deriving DecidableEq

/-- The wording of a refused contract. -/
def SpecError.message : SpecError → String
  | .unknownDType token =>
    s!"unknown dtype `{token}`, options are [ float | half | double | int8 | int | long | bool ]"
  | .unknownFormat token =>
    s!"unknown tensor format `{token}`, " ++
      "options are [ linear | nchw | contiguous | nhwc | channels_last ]"
  | .malformed text =>
    s!"malformed shape `{text}`, expected \"(N,..,C,H,W)\" or \"[(MIN..);(OPT..);(MAX..)]\""
  | .rangeArity found => s!"dynamic shapes need exactly three shape tuples, found {found}"
  | .range cause => cause.message

/-- Reads an element type. -/
def DType.parse (text : String) : Except SpecError DType :=
  match DType.ofText? text with
  | some t => .ok t
  | none => .error (.unknownDType text)

/-- Reads a layout. -/
def TensorFormat.parse (text : String) : Except SpecError TensorFormat :=
  match TensorFormat.ofText? text with
  | some f => .ok f
  | none => .error (.unknownFormat text)

/-- The contract of one graph input. -/
structure InputSpec where
  shape : ShapeSpec
  dtype : DType := .f32
  format : TensorFormat := .contiguous
deriving DecidableEq

namespace InputSpec

/-- Refuses ranges that are out of order. -/
def check (spec : InputSpec) : Except SpecError Unit := spec.shape.check.mapError .range

/-- The spelling of a contract. -/
def text (spec : InputSpec) : String := s!"{spec.shape.text}@{spec.dtype.name}{spec.format.suffix}"

/-- Reads extents in parentheses. -/
def parseTuple (cs : List Char) : Except SpecError (List Nat) :=
  let malformed : Except SpecError (List Nat) := .error (.malformed (String.ofList cs))
  match Text.unwrap? '(' ')' (Text.trim cs) with
  | none => malformed
  | some inner =>
    if (Text.trim inner).isEmpty then .ok []
    else match (Text.splitAll ',' inner).mapM fun part => Text.nat? (Text.trim part) with
      | some dims => .ok dims
      | none => malformed

/-- Reads a shape; `whole` is the text to name when neither form fits. -/
def parseShape (whole : String) (cs : List Char) : Except SpecError ShapeSpec :=
  if cs.head? == some '(' then return .fixed (← parseTuple cs)
  else match Text.unwrap? '[' ']' cs with
    | none => .error (.malformed whole)
    | some inner => do
      match ← (Text.splitAll ';' inner).mapM parseTuple with
      | [lo, mid, hi] => (ShapeSpec.range lo mid hi).mapError .range
      | tuples => .error (.rangeArity tuples.length)

/-- Reads a contract: layout first, then element type, then shape. -/
def parse (text : String) : Except SpecError InputSpec := do
  let cs := Text.trim text.toList
  let (cs, format) ← match Text.splitFirst '%' cs with
    | some (head, tail) => pure (head, ← TensorFormat.parse (String.ofList tail))
    | none => pure (cs, .contiguous)
  let (cs, dtype) ← match Text.splitFirst '@' cs with
    | some (head, tail) => pure (head, ← DType.parse (String.ofList tail))
    | none => pure (cs, .f32)
  let shape ← parseShape text (Text.trim cs)
  return { shape, dtype, format }

end InputSpec

end HybridGraph
