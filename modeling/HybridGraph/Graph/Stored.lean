import HybridGraph.Graph.Index
import HybridGraph.Json.Printer
import HybridGraph.Tensor.Stored
/-!
# Graphs as stored records

`Graph.toJson` writes a graph and `Graph.ofJson?` reads one as it stands.  `Graph.loadWith` reads a
text, whatever writes and reads it, and verifies the graph; `Graph.stored` and `Graph.load` use the
texts of this library.
-/

namespace HybridGraph

/-- The record of an attribute. -/
def Attr.toJson : Attr → Json
  | .none => .string "None"
  | .int n => .tagged "Int" (.int n)
  | .float x => .tagged "Float" (.double x)
  | .bool b => .tagged "Bool" (.bool b)
  | .str s => .tagged "Str" (.string s)
  | .ints ns => .tagged "Ints" (.ints ns)
  | .floats xs => .tagged "Floats" (.list .double xs)
  | .tensor t => .tagged "Tensor" t.toJson
  | .dtype t => .tagged "DType" t.toJson

/-- Reads an attribute. -/
def Attr.ofJson? (j : Json) : Option Attr := do
  match ← Json.variant? j with
  | ("None", Option.none) | ("None", some .null) => return .none
  | ("Int", some payload) => return .int (← payload.int? 64)
  | ("Float", some payload) => return .float (← payload.double?)
  | ("Bool", some payload) => return .bool (← payload.bool?)
  | ("Str", some payload) => return .str (← payload.string?)
  | ("Ints", some payload) => return .ints (← Json.list? (Json.int? 64) payload)
  | ("Floats", some payload) => return .floats (← Json.list? Json.double? payload)
  | ("Tensor", some payload) => return .tensor (← Tensor.ofJson? payload)
  | ("DType", some payload) => return .dtype (← DType.ofJson? payload)
  | _ => Option.none

/-- The record of attributes. -/
def AttrList.toJson (attrs : AttrList) : Json :=
  .object (attrs.entries.map fun e => (e.1, e.2.toJson))

/-- Reads attributes. -/
def AttrList.ofJson? : Json → Option AttrList
  | .object fields => do
    return .ofList (← fields.mapM fun field => return (field.1, ← Attr.ofJson? field.2))
  | _ => none

/-- The record of a kind. -/
def OpKind.toJson (kind : OpKind) : Json := .string kind.tag

/-- Reads a kind. -/
def OpKind.ofJson? : Json → Option OpKind := Json.unit? OpKind.ofTag?

/-- The record of a value id. -/
def ValueId.toJson (v : ValueId) : Json := .nat v.index

/-- Reads a value id. -/
def ValueId.ofJson? (j : Json) : Option ValueId := j.index?.map ValueId.mk

/-- The record of a node id. -/
def NodeId.toJson (n : NodeId) : Json := .nat n.number

/-- Reads a node id. -/
def NodeId.ofJson? (j : Json) : Option NodeId := j.index?.map NodeId.mk

/-- The record of a value. -/
def ValueInfo.toJson (v : ValueInfo) : Json :=
  .object [("ty", v.type.toJson), ("name", .option .string v.name)]

/-- Reads a value. -/
def ValueInfo.ofJson? (j : Json) : Option ValueInfo := do
  let r ← Json.record? ["ty", "name"] j
  return {
    type := ← r.required "ty" ValueType.ofJson?
    name := ← r.optional "name" Json.string? }

/-- The record of a node. -/
def Node.toJson (node : Node) : Json :=
  .object [("id", node.id.toJson), ("kind", node.kind.toJson),
    ("inputs", .list ValueId.toJson node.inputs), ("outputs", .list ValueId.toJson node.outputs),
    ("attrs", node.attrs.toJson), ("scope", .option .string node.scope)]

/-- Reads a node. -/
def Node.ofJson? (j : Json) : Option Node := do
  let r ← Json.record? ["id", "kind", "inputs", "outputs", "attrs", "scope"] j
  return {
    id := ← r.required "id" NodeId.ofJson?
    kind := ← r.required "kind" OpKind.ofJson?
    inputs := ← r.required "inputs" (Json.list? ValueId.ofJson?)
    outputs := ← r.required "outputs" (Json.list? ValueId.ofJson?)
    attrs := ← r.defaulted "attrs" .empty AttrList.ofJson?
    scope := ← r.defaulted "scope" none (Json.option? Json.string?) }

namespace Graph

/-- The record of a graph. -/
def toJson (g : Graph) : Json :=
  .object [("name", .string g.name), ("values", .list ValueInfo.toJson g.values.toList),
    ("nodes", .list Node.toJson g.nodes), ("inputs", .list ValueId.toJson g.inputs),
    ("outputs", .list ValueId.toJson g.outputs), ("next_node", .nat g.nextNode)]

/-- Reads a graph as it stands. -/
def ofJson? (j : Json) : Option Graph := do
  let r ← Json.record? ["name", "values", "nodes", "inputs", "outputs", "next_node"] j
  return {
    name := ← r.required "name" Json.string?
    values := (← r.required "values" (Json.list? ValueInfo.ofJson?)).toArray
    nodes := ← r.required "nodes" (Json.list? Node.ofJson?)
    inputs := ← r.required "inputs" (Json.list? ValueId.ofJson?)
    outputs := ← r.required "outputs" (Json.list? ValueId.ofJson?)
    nextNode := ← r.required "next_node" Json.index? }

/-- The stored text of a graph. -/
def storedWith (S : Json.Serializer) (g : Graph) : String := S.write g.toJson

/-- The stored text of a graph, indented. -/
def stored (g : Graph) : String := g.storedWith .pretty

/-- Why a stored graph is refused. -/
inductive LoadError where
  | malformed
  | structure (cause : StructuralError)

/-- Reads the text of a stored graph and verifies it. -/
def loadWith (S : Json.Serializer) (text : String) : Except LoadError Graph := do
  let some g := (S.read text).bind ofJson? | throw .malformed
  g.verify.mapError .structure
  return g

/-- Reads the stored text of a graph and verifies it. -/
def load (text : String) : Except LoadError Graph := loadWith .pretty text

end Graph

end HybridGraph
