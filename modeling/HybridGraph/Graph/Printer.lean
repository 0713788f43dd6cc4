import HybridGraph.Graph.Basic
/-!
# Graph texts, written

```text
graph act(%x : Float(1, 3, 8, 8)):
  %lo : float = prim::Constant[value=-0.5]()
  %y : Tensor = aten::hardtanh(%x, %lo) # encoder.act
  return (%y)
```

A value without a name is written `%_` and its place in the arena.
-/

namespace HybridGraph

/-- The spelling of an element type in graph texts. -/
def DType.typeName : DType → String
  | .f32 => "Float"
  | .f16 => "Half"
  | .f64 => "Double"
  | .i8 => "Char"
  | .i32 => "Int"
  | .i64 => "Long"
  | .bool => "Bool"

/-- The element type of a spelling in graph texts. -/
def DType.ofTypeName? (name : String) : Option DType := DType.all.find? (·.typeName == name)

/-- The spelling of a type in graph texts. -/
def ValueType.source : ValueType → String
  | .scalar kind => kind.name
  | .list kind => kind.name ++ "[]"
  | .tensor t =>
    (t.dtype.map DType.typeName).getD "Tensor" ++
      match t.shape with
      | some dims => "(" ++ ", ".intercalate (dims.map Dimension.text) ++ ")"
      | none => ""

namespace Graph

/-- The label of a value. -/
def label (g : Graph) (v : ValueId) : String :=
  match (g.value? v).bind ValueInfo.name with
  | some name => "%" ++ name
  | none => s!"%_{v.index}"

/-- A value with its type. -/
def binding (g : Graph) (v : ValueId) : String := s!"{g.label v} : {(g.typeOf v).source}"

/-- Labels, separated by commas. -/
def labels (g : Graph) (vs : List ValueId) : String := ", ".intercalate (vs.map g.label)

/-- Bindings, separated by commas. -/
def bindings (g : Graph) (vs : List ValueId) : String := ", ".intercalate (vs.map g.binding)

/-- The attribute list of a node; nothing if it is empty. -/
def attrText (attrs : AttrList) : String :=
  if attrs.entries.isEmpty then ""
  else "[" ++ ", ".intercalate (attrs.entries.map fun e => s!"{e.1}={e.2.text}") ++ "]"

/-- The line of a node. -/
def nodeText (g : Graph) (node : Node) : String :=
  let results := if node.outputs.isEmpty then "" else g.bindings node.outputs ++ " = "
  let scope := match node.scope with
    | some path => s!" # {path}"
    | none => ""
  s!"  {results}{node.kind.name}{attrText node.attrs}({g.labels node.inputs}){scope}\n"

/-- The text of a graph. -/
def text (g : Graph) : String :=
  s!"graph {g.name}({g.bindings g.inputs}):\n" ++ String.join (g.nodes.map g.nodeText) ++
    s!"  return ({g.labels g.outputs})\n"

end Graph

end HybridGraph
