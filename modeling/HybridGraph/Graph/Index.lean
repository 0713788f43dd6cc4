import HybridGraph.Graph.Basic
import Std.Data.HashMap
/-!
# The index of a graph

`GraphIndex.build` walks a graph once and refuses it unless every value is defined once, every
operand is defined before it is read and every graph output is defined.  The index then answers
where a node stands, where a value is defined and which nodes read it.
-/

namespace HybridGraph

/-- Where a value is defined. -/
inductive Definition where
  | input (index : Nat)
  | node (id : NodeId) (slot : Nat)

/-- The side of a node on which its count of values is wrong. -/
inductive NodeSide where
  | inputs | outputs

/-- The word for a side. -/
def NodeSide.text : NodeSide → String
  | .inputs => "inputs"
  | .outputs => "outputs"

/-- Why a graph is malformed. -/
inductive StructuralError where
  | undefinedOperand (node : NodeId) (kind : OpKind) (value : ValueId)
  | redefined (value : ValueId)
  | unknownValue (value : ValueId)
  | undefinedOutput (value : ValueId)
  | duplicateNode (node : NodeId)
  | arity (node : NodeId) (kind : OpKind) (side : NodeSide) (expected : OpKind.Arity) (found : Nat)

/-- The wording of a malformed graph. -/
def StructuralError.message : StructuralError → String
  | .undefinedOperand node kind value =>
    s!"node {node.text} ({kind.name}) reads {value.text} before it is defined"
  | .redefined value => s!"value {value.text} is defined more than once"
  | .unknownValue value => s!"value {value.text} is not part of the graph arena"
  | .undefinedOutput value => s!"graph output {value.text} is never defined"
  | .duplicateNode node => s!"node id {node.text} appears more than once"
  | .arity node kind side expected found =>
    s!"node {node.text} ({kind.name}) has {found} {side.text}, expected {expected.text}"

/-- The index of a graph. -/
structure GraphIndex where
  positions : Std.HashMap NodeId Nat
  definitions : Std.HashMap ValueId Definition
  readers : Std.HashMap ValueId (List NodeId)
  outputs : List ValueId

namespace GraphIndex

/-! ## Building -/

/-- Refuses values outside the arena. -/
def checkKnown (arena : Nat) (v : ValueId) : Except StructuralError Unit :=
  if v.index < arena then .ok () else .error (.unknownValue v)

/-- Enters a definition. -/
def define (arena : Nat) (index : GraphIndex) (site : Definition) (v : ValueId) :
    Except StructuralError GraphIndex := do
  checkKnown arena v
  if index.definitions.contains v then .error (.redefined v)
  else return { index with definitions := index.definitions.insert v site }

/-- Adds a node to the readers of a value, once. -/
def addReader (id : NodeId) (readers : List NodeId) : List NodeId :=
  if readers.contains id then readers else readers ++ [id]

/-- Enters a read. -/
def read (arena : Nat) (node : Node) (index : GraphIndex) (v : ValueId) :
    Except StructuralError GraphIndex := do
  checkKnown arena v
  if !index.definitions.contains v then .error (.undefinedOperand node.id node.kind v)
  else
    return { index with
      readers := index.readers.insert v (addReader node.id (index.readers.getD v [])) }

/-- Enters a node: its place, then its reads, then its definitions. -/
def enterNode (arena : Nat) (index : GraphIndex) (entry : Node × Nat) :
    Except StructuralError GraphIndex := do
  let (node, position) := entry
  if index.positions.contains node.id then throw (.duplicateNode node.id)
  let index := { index with positions := index.positions.insert node.id position }
  let index ← node.inputs.foldlM (read arena node) index
  node.outputs.zipIdx.foldlM
    (fun index (v, slot) => index.define arena (.node node.id slot) v) index

/-- Refuses outputs without a definition. -/
def checkOutput (index : GraphIndex) (v : ValueId) : Except StructuralError Unit :=
  if index.definitions.contains v then .ok () else .error (.undefinedOutput v)

/-- The index of a graph, or the first reason why it is malformed. -/
def build (g : Graph) : Except StructuralError GraphIndex := do
  let arena := g.values.size
  let start : GraphIndex := ⟨∅, ∅, ∅, g.outputs⟩
  let index ← g.inputs.zipIdx.foldlM (fun index (v, i) => index.define arena (.input i) v) start
  let index ← g.nodes.zipIdx.foldlM (enterNode arena) index
  g.outputs.forM index.checkOutput
  return index

/-! ## Asking -/

/-- The place of a node in the order. -/
def position? (index : GraphIndex) (id : NodeId) : Option Nat := index.positions[id]?

/-- Where a value is defined. -/
def definition? (index : GraphIndex) (v : ValueId) : Option Definition := index.definitions[v]?

/-- The node that defines a value; there is none for graph inputs. -/
def producer? (index : GraphIndex) (v : ValueId) : Option NodeId :=
  match index.definition? v with
  | some (.node id _) => some id
  | _ => none

/-- Whether a value is a graph input. -/
def isInput (index : GraphIndex) (v : ValueId) : Bool :=
  match index.definition? v with
  | some (.input _) => true
  | _ => false

/-- Whether a value is a graph output. -/
def isOutput (index : GraphIndex) (v : ValueId) : Bool := index.outputs.contains v

/-- The nodes that read a value, in order. -/
def users (index : GraphIndex) (v : ValueId) : List NodeId := index.readers.getD v []

/-- Whether nothing reads a value, graph outputs included. -/
def isDead (index : GraphIndex) (v : ValueId) : Bool := (index.users v).isEmpty && !index.isOutput v

end GraphIndex

namespace Graph

/-- Refuses counts outside a range. -/
def checkArity (node : Node) (side : NodeSide) (found : Nat) :
    Option OpKind.Arity → Except StructuralError Unit
  | none => .ok ()
  | some expected =>
    if expected.admits found then .ok ()
    else .error (.arity node.id node.kind side expected found)

/-- Refuses nodes whose operands or results are too few or too many. -/
def checkNode (node : Node) : Except StructuralError Unit := do
  checkArity node .inputs node.inputs.length node.kind.inputArity?
  checkArity node .outputs node.outputs.length node.kind.outputArity?

/-- Refuses malformed graphs: those without an index, then those with a node of wrong arity. -/
def verify (g : Graph) : Except StructuralError Unit := do
  let _ ← GraphIndex.build g
  g.nodes.forM checkNode

end Graph

end HybridGraph
