import HybridGraph.Graph.Index
import HybridGraph.Graph.Printer
import HybridGraph.Tensor.InputSpec
import HybridGraph.Text.Literal
/-!
# Graph texts, read

`parse` reads the text form line by line, skips empty lines and `//` comments, and verifies the
result.  `Source.names` keeps which value every name stands for.  An error names its line, or line
zero when it concerns the text as a whole.
-/

namespace HybridGraph

/-- What is wrong with a graph text. -/
inductive SourceFault where
  | empty
  | noHeader
  | noParameters
  | unbalancedParameters
  | headerEnd
  | redefined (name : String)
  | expectedValue (token : String)
  | unknownValue (name : String)
  | expectedBinding (text : String)
  | bindingName (text : String)
  | afterReturn
  | noReturn
  | noAssignment
  | noOperands
  | unknownKind (cause : OpKind.Unknown)
  | unbalancedAttributes
  | malformedAttribute (entry : String)
  | unbalancedOperands
  | trailing
  | constantValue
  | constantCount (dims : List Nat) (found : Nat)
  | tensor (cause : TensorError)
  | badList (text : String)
  | badAttribute (text : String)
  | malformedType (text : String)
  | unknownType (text : String)
  | badDimension (text : String)
  | structure (cause : StructuralError)

/-- The wording of a fault. -/
def SourceFault.message : SourceFault → String
  | .empty => "input is empty"
  | .noHeader => "expected `graph(...)` header"
  | .noParameters => "missing `(` in graph header"
  | .unbalancedParameters => "unbalanced parameter list"
  | .headerEnd => "graph header must end with `):`"
  | .redefined name => s!"value `%{name}` redefined"
  | .expectedValue token => s!"expected value, found `{token}`"
  | .unknownValue name => s!"unknown value `%{name}`"
  | .expectedBinding text => s!"expected `%name : Type`, found `{text}`"
  | .bindingName text => s!"value names start with `%`: `{text}`"
  | .afterReturn => "statements after `return`"
  | .noReturn => "graph has no `return`"
  | .noAssignment => "expected `=` after result bindings"
  | .noOperands => "missing operand list"
  | .unknownKind cause => cause.message
  | .unbalancedAttributes => "unbalanced attribute list"
  | .malformedAttribute entry => s!"malformed attribute `{entry}`"
  | .unbalancedOperands => "unbalanced operand list"
  | .trailing => "trailing text after operand list"
  | .constantValue => "tensor constants need a numeric `value`"
  | .constantCount dims found =>
    s!"constant of shape {Text.natList dims} needs {elementCount dims} values, found {found}"
  | .tensor cause => cause.message
  | .badList text => s!"invalid list attribute `{text}`"
  | .badAttribute text => s!"invalid attribute value `{text}`"
  | .malformedType text => s!"malformed type `{text}`"
  | .unknownType text => s!"unknown type `{text}`"
  | .badDimension text => s!"invalid dimension `{text}`"
  | .structure cause => cause.message

/-- A fault and the line it stands on. -/
structure SourceError where
  line : Nat
  fault : SourceFault

/-- The wording of an error. -/
def SourceError.message (e : SourceError) : String := s!"line {e.line}: {e.fault.message}"

namespace Source

/-- Result of reading part of a line. -/
abbrev Read (α : Type) := Except SourceFault α

/-! ## Brackets -/

/-- What stands before the bracket that closes the `depth` open ones, and after it. -/
def untilClosed (opening closing : Char) : Nat → List Char → Option (List Char × List Char)
  | _, [] => none
  | depth, c :: rest =>
    if c == opening then
      (untilClosed opening closing (depth + 1) rest).map fun (inner, after) => (c :: inner, after)
    else if c == closing then
      match depth with
      | 0 | 1 => some ([], rest)
      | depth + 2 =>
        (untilClosed opening closing (depth + 1) rest).map fun (inner, after) =>
          (c :: inner, after)
    else (untilClosed opening closing depth rest).map fun (inner, after) => (c :: inner, after)

/-- The contents of the bracket that a text opens with, and what follows it. -/
def bracketed (opening closing : Char) : List Char → Option (List Char × List Char)
  | [] => none
  | c :: rest => if c == opening then untilClosed opening closing 1 rest else none

/-- Cuts at the commas outside brackets and quotes; the pieces come trimmed. -/
def cutTopLevel : Nat → Bool → List Char → List Char → List (List Char)
  | _, _, piece, [] => [Text.trim piece.reverse]
  | depth, quoted, piece, c :: rest =>
    if c == '"' then cutTopLevel depth (!quoted) (c :: piece) rest
    else if !quoted && (c == '(' || c == '[') then cutTopLevel (depth + 1) quoted (c :: piece) rest
    else if !quoted && (c == ')' || c == ']') then cutTopLevel (depth - 1) quoted (c :: piece) rest
    else if c == ',' && depth == 0 && !quoted then
      Text.trim piece.reverse :: cutTopLevel depth quoted [] rest
    else cutTopLevel depth quoted (c :: piece) rest

/-- The pieces of a comma list; an empty text has none. -/
def commaList (cs : List Char) : List (List Char) :=
  match cutTopLevel 0 false [] cs with
  | [[]] => []
  | pieces => pieces

/-! ## Types and attributes -/

/-- Reads the extents of a type. -/
def dimensions (cs : List Char) : Read (List Dimension) :=
  (commaList cs).mapM fun dim =>
    if dim == ['?'] || dim == ['*'] then .ok .dynamic
    else match Text.nat? dim with
      | some n => .ok (.fixed n)
      | none => .error (.badDimension (String.ofList dim))

/-- Reads the scalar and list types. -/
def plainType? (cs : List Char) : Option ValueType :=
  match (Text.dropBack? ['[', ']'] cs).bind fun head => ScalarKind.ofName? (String.ofList head) with
  | some kind => some (.list kind)
  | none => (ScalarKind.ofName? (String.ofList cs)).map .scalar

/-- Reads a type. -/
def type (text : List Char) : Read ValueType := do
  let cs := Text.trim text
  match plainType? cs with
  | some t => return t
  | none =>
    let head := cs.takeWhile (· != '(')
    let tail := cs.dropWhile (· != '(')
    let shape ←
      if tail.isEmpty then pure none
      else match Text.unwrap? '(' ')' tail with
        | some inner => some <$> dimensions inner
        | none => throw (.malformedType (String.ofList cs))
    let name := String.ofList (Text.trim head)
    if name == "Tensor" then return .tensor ⟨none, shape⟩
    else match DType.ofTypeName? name with
      | some dtype => return .tensor ⟨some dtype, shape⟩
      | none => throw (.unknownType (String.ofList cs))

/-- Reads a list attribute: integers if all items are, otherwise floats. -/
def listAttr (whole inner : List Char) : Read Attr :=
  let items := commaList inner
  match items.mapM Text.int? with
  | some ints => .ok (.ints ints)
  | none =>
    match items.mapM Text.float? with
    | some floats => .ok (.floats floats)
    | none => .error (.badList (String.ofList whole))

/-- Reads an attribute. -/
def attr (text : List Char) : Read Attr :=
  let cs := Text.trim text
  let word := String.ofList cs
  if word == "None" then .ok .none
  else if word == "true" then .ok (.bool true)
  else if word == "false" then .ok (.bool false)
  else match Text.unwrap? '"' '"' cs with
    | some inner => .ok (.str (String.ofList inner))
    | none =>
      match Text.unwrap? '[' ']' cs with
      | some inner => listAttr cs inner
      | none =>
        match Text.int? cs, Text.float? cs, DType.ofText? word with
        | some n, _, _ => .ok (.int n)
        | none, some x, _ => .ok (.float x)
        | none, none, some dtype => .ok (.dtype dtype)
        | none, none, none => .error (.badAttribute word)

/-- The numbers of a tensor constant and the element type they suggest. -/
def constantNumbers? : Option Attr → Option (List Float × DType)
  | some (.float x) => some ([x], .f32)
  | some (.int n) => some ([Number.ofInt n], .i64)
  | some (.bool b) => some ([if b then 1.0 else 0.0], .bool)
  | some (.floats xs) => some (xs, .f32)
  | some (.ints ns) => some (ns.map Number.ofInt, .i64)
  | _ => none

/-- Whether an attribute is a list of numbers. -/
def isNumberList : Option Attr → Bool
  | some (.floats _) | some (.ints _) => true
  | _ => false

/-- The payload of a tensor constant.  The declared type fixes element type and extents; where it
leaves them open a list has one axis and a single number none. -/
def constantTensor (declared : TensorType) (value : Option Attr) : Read Tensor :=
  match value.bind Attr.tensor?, constantNumbers? value with
  | some tensor, _ => .ok tensor
  | none, none => .error .constantValue
  | none, some (numbers, suggested) =>
    let dims := match declared.fixedExtents? with
      | some dims => dims
      | none => if isNumberList value then [numbers.length] else []
    if elementCount dims ≠ numbers.length then .error (.constantCount dims numbers.length)
    else
      (Tensor.ofDoubles (declared.dtype.getD suggested) dims numbers.toArray).mapError .tensor

/-! ## Values -/

/-- Reads a name and a type. -/
def binding (text : List Char) : Read (String × List Char) :=
  match Text.splitFirst ':' text with
  | none => .error (.expectedBinding (String.ofList text))
  | some (before, type) =>
    match Text.trim before with
    | '%' :: name => .ok (String.ofList name, Text.trim type)
    | _ => .error (.bindingName (String.ofList before))

/-- A graph under construction and the value of every name; the newest name stands first. -/
structure State where
  graph : Graph
  names : List (String × ValueId)

/-- Reads the name of a value. -/
def lookup (names : List (String × ValueId)) (token : List Char) : Read ValueId :=
  match Text.trim token with
  | '%' :: name =>
    match names.lookup (String.ofList name) with
    | some v => .ok v
    | none => .error (.unknownValue (String.ofList name))
  | _ => .error (.expectedValue (String.ofList token))

/-- Gives a value its name. -/
def State.define (s : State) (name : String) (v : ValueId) : Read State :=
  if (s.names.lookup name).isSome then .error (.redefined name)
  else .ok { s with names := (name, v) :: s.names }

/-! ## Lines -/

/-- Reads a parameter. -/
def parameter (s : State) (text : List Char) : Read State := do
  let (name, typeText) ← binding text
  let t ← type typeText
  let (graph, v) := s.graph.addInput t name
  State.define { s with graph } name v

/-- Reads the header. -/
def header (cs : List Char) : Read State := do
  let some rest := Text.dropFront? "graph".toList cs | throw .noHeader
  let before := rest.takeWhile (· != '(')
  let tail := rest.dropWhile (· != '(')
  if tail.isEmpty then throw .noParameters
  let name := String.ofList (Text.trim before)
  let some (inner, after) := bracketed '(' ')' tail | throw .unbalancedParameters
  if Text.trim after != [':'] then throw .headerEnd
  let start : State := ⟨Graph.empty (if name.isEmpty then "graph" else name), []⟩
  (commaList inner).foldlM parameter start

/-- Reads the values that a graph returns. -/
def returned (s : State) (cs : List Char) : Read (List ValueId) :=
  let body := Text.trim cs
  (commaList ((Text.unwrap? '(' ')' body).getD body)).mapM (lookup s.names)

/-- Reads an entry of an attribute list. -/
def attrEntry (attrs : AttrList) (entry : List Char) : Read AttrList :=
  match Text.splitFirst '=' entry with
  | none => .error (.malformedAttribute (String.ofList entry))
  | some (key, value) => do
    return attrs.insert (String.ofList (Text.trim key)) (← attr value)

/-- An operation: its kind, attributes and operands. -/
structure Call where
  kind : OpKind
  attrs : AttrList
  inputs : List ValueId

/-- Reads an operation. -/
def call (s : State) (cs : List Char) : Read Call := do
  let isOpening (c : Char) : Bool := c == '[' || c == '('
  let kindText := cs.takeWhile fun c => !isOpening c
  let tail := cs.dropWhile fun c => !isOpening c
  if tail.isEmpty then throw .noOperands
  let kind ← (OpKind.parse (String.ofList kindText)).mapError .unknownKind
  let (attrs, tail) ←
    if tail.head? == some '[' then do
      let some (inner, after) := bracketed '[' ']' tail | throw .unbalancedAttributes
      pure (← (commaList inner).foldlM attrEntry AttrList.empty, Text.trimLeft after)
    else pure (AttrList.empty, tail)
  if tail.head? != some '(' then throw .noOperands
  let some (inner, after) := bracketed '(' ')' tail | throw .unbalancedOperands
  if !(Text.trim after).isEmpty then throw .trailing
  return ⟨kind, attrs, ← (commaList inner).mapM (lookup s.names)⟩

/-- Reads a result binding. -/
def resultBinding (text : List Char) : Read (String × ValueType) := do
  let (name, typeText) ← binding text
  return (name, ← type typeText)

/-- Defines a result.  A tensor constant takes its payload's element type and extents. -/
def defineResult (acc : State × Call × List ValueId) (result : String × ValueType) :
    Read (State × Call × List ValueId) := do
  let (s, call, outputs) := acc
  let (name, declared) := result
  let (type, call) ← match call.kind, declared with
    | .constant, .tensor t => do
      let tensor ← constantTensor t (call.attrs.get? "value")
      pure (.tensor (.of tensor.dtype tensor.dims),
        { call with attrs := call.attrs.insert "value" (.tensor tensor) })
    | _, _ => pure (declared, call)
  let (graph, v) := s.graph.newValue type (some name)
  let s ← State.define { s with graph } name v
  return (s, call, outputs ++ [v])

/-- Reads a node. -/
def statement (s : State) (cs : List Char) : Read State := do
  let (text, scope) := match Text.splitFirst '#' cs with
    | some (body, scope) => (Text.trim body, some (String.ofList (Text.trim scope)))
    | none => (cs, none)
  let (results, callText) ←
    if text.head? == some '%' then do
      let some (lhs, rhs) := Text.splitFirst '=' text | throw .noAssignment
      pure (← (commaList lhs).mapM resultBinding, Text.trim rhs)
    else pure ([], text)
  let parsed ← call s callText
  let (s, parsed, outputs) ← results.foldlM defineResult (s, parsed, [])
  let node : Node :=
    { id := ⟨0⟩, kind := parsed.kind, inputs := parsed.inputs, outputs, attrs := parsed.attrs,
      scope }
  return { s with graph := (s.graph.pushNode node).1 }

/-- A numbered line that is neither empty nor a comment. -/
def numberedLines (cs : List Char) : List (Nat × List Char) :=
  (((Text.lines cs).zipIdx 1).map fun (line, n) => (n, Text.trim line)).filter fun (_, line) =>
    !line.isEmpty && line.take 2 != ['/', '/']

/-- Reads the lines after the header. -/
def body (s : State) : Option (List ValueId) → List (Nat × List Char) →
    Except SourceError (State × Option (List ValueId))
  | outputs, [] => .ok (s, outputs)
  | some _, (n, _) :: _ => .error ⟨n, .afterReturn⟩
  | none, (n, line) :: rest =>
    match Text.dropFront? "return".toList line with
    | some values => do
      body s (some (← (returned s values).mapError (⟨n, ·⟩))) rest
    | none => do
      body (← (statement s line).mapError (⟨n, ·⟩)) none rest

end Source

/-- A graph and the value of every name in its text. -/
structure ParsedGraph where
  graph : Graph
  names : List (String × ValueId)

/-- Reads and verifies a graph text. -/
def ParsedGraph.parse (text : String) : Except SourceError ParsedGraph := do
  match Source.numberedLines text.toList with
  | [] => throw ⟨0, .empty⟩
  | (n, line) :: rest =>
    let start ← (Source.header line).mapError (⟨n, ·⟩)
    let (s, outputs?) ← Source.body start none rest
    let some outputs := outputs? | throw ⟨0, .noReturn⟩
    let graph := { s.graph with outputs := outputs }
    graph.verify.mapError fun e => ⟨0, .structure e⟩
    return ⟨graph, s.names⟩

/-- Reads and verifies a graph text. -/
def Graph.parse (text : String) : Except SourceError Graph := do
  return (← ParsedGraph.parse text).graph

end HybridGraph
