import HybridGraph.Graph.Attr
import HybridGraph.Graph.OpKind
import HybridGraph.Tensor.ValueType
/-!
# Graphs

A graph is an ordered list of nodes over an arena of values.  Values and nodes are named by ids:
a value id is a place in the arena, a node id is handed out by a 32-bit counter that begins again
behind its last number.  Nodes stand in the order in which they run; whoever inserts nodes puts them
before the first reader of their results.
-/

namespace HybridGraph

/-- The name of a value: its place in the arena. -/
structure ValueId where
  index : Nat
deriving DecidableEq, Hashable

/-- The name of a node. -/
structure NodeId where
  number : Nat
deriving DecidableEq, Hashable

/-- The spelling of a value id. -/
def ValueId.text (v : ValueId) : String := s!"%{v.index}"

/-- The spelling of a node id. -/
def NodeId.text (n : NodeId) : String := s!"n{n.number}"

/-- The number behind a node number.  There are 32-bit numbers only, `2 ^ 32` of them, and the first
one stands behind the last one. -/
def NodeId.next (number : Nat) : Nat := (number + 1) % 4294967296

/-- A value: its type and, if it has one, its name. -/
structure ValueInfo where
  type : ValueType
  name : Option String

/-- A node: an operation, what it reads, what it defines, its attributes and the dotted path of the
module it belongs to. -/
structure Node where
  id : NodeId
  kind : OpKind
  inputs : List ValueId
  outputs : List ValueId
  attrs : AttrList
  scope : Option String

namespace Node

/-- The attribute of a name. -/
def attr? (node : Node) (name : String) : Option Attr := node.attrs.get? name

/-- An integer attribute. -/
def int? (node : Node) (name : String) : Option Int := (node.attr? name).bind Attr.int?

/-- A number attribute. -/
def float? (node : Node) (name : String) : Option Float := (node.attr? name).bind Attr.float?

/-- A truth-value attribute. -/
def bool? (node : Node) (name : String) : Option Bool := (node.attr? name).bind Attr.bool?

/-- A string attribute. -/
def str? (node : Node) (name : String) : Option String := (node.attr? name).bind Attr.str?

/-- An attribute that is a list of integers. -/
def ints? (node : Node) (name : String) : Option (List Int) := (node.attr? name).bind Attr.ints?

/-- An element-type attribute. -/
def dtype? (node : Node) (name : String) : Option DType := (node.attr? name).bind Attr.dtype?

/-- Sets an attribute. -/
def setAttr (node : Node) (name : String) (value : Attr) : Node :=
  { node with attrs := node.attrs.insert name value }

/-- The result, if there is exactly one. -/
def output? (node : Node) : Option ValueId :=
  match node.outputs with
  | [v] => some v
  | _ => none

/-- Whether the node belongs to a module or to one inside it. -/
def inModule (node : Node) (path : String) : Bool :=
  match node.scope with
  | none => false
  | some scope =>
    match Text.dropFront? path.toList scope.toList with
    | some rest => rest.isEmpty || rest.head? == some '.'
    | none => false

/-- Puts one operand in the place of another. -/
def replaceInput (old new : ValueId) (node : Node) : Node :=
  { node with inputs := node.inputs.map fun v => if v = old then new else v }

end Node

/-- A graph. -/
structure Graph where
  name : String
  values : Array ValueInfo
  nodes : List Node
  inputs : List ValueId
  outputs : List ValueId
  nextNode : Nat

namespace Graph

/-- A graph without values and nodes. -/
def empty (name : String) : Graph := ⟨name, #[], [], [], [], 0⟩

/-! ## Looking things up -/

/-- The value of an id. -/
def value? (g : Graph) (v : ValueId) : Option ValueInfo := g.values[v.index]?

/-- The type of a value. -/
def type? (g : Graph) (v : ValueId) : Option ValueType := (g.value? v).map ValueInfo.type

/-- The type of a value; an unknown value counts as a tensor about which nothing is known. -/
def typeOf (g : Graph) (v : ValueId) : ValueType := (g.type? v).getD (.tensor .unknown)

/-- The tensor type of a value. -/
def tensorType? (g : Graph) (v : ValueId) : Option TensorType := (g.type? v).bind ValueType.tensor?

/-- Whether a value is known to be a tensor. -/
def isTensor (g : Graph) (v : ValueId) : Bool := (g.tensorType? v).isSome

/-- The declared element type of a value. -/
def dtype? (g : Graph) (v : ValueId) : Option DType := (g.tensorType? v).bind TensorType.dtype

/-- The node of an id. -/
def node? (g : Graph) (id : NodeId) : Option Node := g.nodes.find? (·.id = id)

/-- The place of a node in the order. -/
def position? (g : Graph) (id : NodeId) : Option Nat := g.nodes.findIdx? (·.id = id)

/-- The node that defines a value. -/
def producer? (g : Graph) (v : ValueId) : Option Node := g.nodes.find? (·.outputs.contains v)

/-- The ids of the nodes, in order. -/
def nodeIds (g : Graph) : List NodeId := g.nodes.map Node.id

/-! ## Changing a graph -/

/-- Adds a value that no node defines. -/
def newValue (g : Graph) (type : ValueType) (name : Option String) : Graph × ValueId :=
  ({ g with values := g.values.push ⟨type, name⟩ }, ⟨g.values.size⟩)

/-- Adds values without names, one for each type. -/
def newValues (g : Graph) : List ValueType → Graph × List ValueId
  | [] => (g, [])
  | type :: types =>
    let (g, v) := g.newValue type none
    let (g, vs) := g.newValues types
    (g, v :: vs)

/-- Adds an input. -/
def addInput (g : Graph) (type : ValueType) (name : String) : Graph × ValueId :=
  let (g, v) := g.newValue type (some name)
  ({ g with inputs := g.inputs ++ [v] }, v)

/-- Hands out a node id. -/
def freshNode (g : Graph) : Graph × NodeId :=
  ({ g with nextNode := NodeId.next g.nextNode }, ⟨g.nextNode⟩)

/-- Inserts a node with new results at a place in the order; a place past the end is the end. -/
def insertNode (g : Graph) (position : Nat) (kind : OpKind) (inputs : List ValueId)
    (types : List ValueType) (attrs : AttrList) (scope : Option String) :
    Graph × NodeId × List ValueId :=
  let (g, outputs) := g.newValues types
  let (g, id) := g.freshNode
  let node : Node := { id, kind, inputs, outputs, attrs, scope }
  ({ g with nodes := g.nodes.insertIdx (min position g.nodes.length) node }, id, outputs)

/-- Appends a node with new results. -/
def addNode (g : Graph) (kind : OpKind) (inputs : List ValueId) (types : List ValueType)
    (attrs : AttrList) : Graph × NodeId × List ValueId :=
  g.insertNode g.nodes.length kind inputs types attrs none

/-- Appends a node whose results exist already; it gets a new id. -/
def pushNode (g : Graph) (node : Node) : Graph × NodeId :=
  let (g, id) := g.freshNode
  ({ g with nodes := g.nodes ++ [{ node with id := id }] }, id)

/-- Sets the type of a value. -/
def setType (g : Graph) (v : ValueId) (type : ValueType) : Graph :=
  { g with values := g.values.modify v.index fun data => { data with type := type } }

/-- Changes the first node of a list that has the given id. -/
def updateFirst (id : NodeId) (change : Node → Node) : List Node → List Node
  | [] => []
  | node :: rest => if node.id = id then change node :: rest else node :: updateFirst id change rest

/-- Changes a node. -/
def updateNode (g : Graph) (id : NodeId) (change : Node → Node) : Graph :=
  { g with nodes := updateFirst id change g.nodes }

/-- How often a value is read, graph outputs included. -/
def readCount (g : Graph) (v : ValueId) : Nat :=
  (g.nodes.map fun node => node.inputs.count v).foldl (· + ·) 0 + g.outputs.count v

/-- Makes every reader of `old`, graph outputs included, read `new`. -/
def replaceUses (g : Graph) (old new : ValueId) : Graph :=
  { g with
    nodes := g.nodes.map (Node.replaceInput old new)
    outputs := g.outputs.map fun v => if v = old then new else v }

/-- Drops nodes; their results stay in the arena. -/
def removeNodes (g : Graph) (ids : List NodeId) : Graph :=
  { g with nodes := g.nodes.filter fun node => !ids.contains node.id }

end Graph

end HybridGraph
