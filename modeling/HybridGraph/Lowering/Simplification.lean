import HybridGraph.Lowering.Basic
/-!
# Passes over single nodes

Folding constant operands into attributes, writing defaults out and removing identities.
-/

/-! ## Folding

An attribute may be passed as an operand.  When all attribute operands of a node are scalar
constants they become attributes of the node; one that is not constant keeps the node as it is.  A
constant second operand of a function of two operands becomes the attribute `other`. -/

namespace HybridGraph.Folding

/-- A payload as an attribute of the given name: scalar codes become element types. -/
def asAttribute (name : String) (value : Attr) : Attr :=
  match value with
  | .int code =>
    if name == "dtype" then
      match DType.ofScalarCode? code with
      | some dtype => .dtype dtype
      | none => value
    else value
  | _ => value

/-- Attributes for which none means that they are not given. -/
def mayBeAbsent (name : String) : Bool := ["dtype", "dim", "memory_format"].contains name

/-- Adds a folded attribute. -/
def addFolded (attrs : AttrList) (entry : String × Attr) : AttrList :=
  if entry.2.isNone && mayBeAbsent entry.1 then attrs else attrs.insert entry.1 entry.2

/-- The attributes that the operands after the first `count` carry, if all are constant. -/
def trailing? (g : Graph) (node : Node) (count : Nat) : Option (List (String × Attr)) :=
  (node.kind.attributeNames.zip (node.inputs.drop count)).mapM fun (name, v) =>
    (g.scalarConstant? v).map fun a => (name, asAttribute name a)

/-- The node with its attribute operands folded, if they can be. -/
def foldAttributes? (g : Graph) (node : Node) : Option Node := do
  let count ← node.kind.tensorOperands?
  let extra := node.inputs.length - count
  if extra = 0 ∨ node.kind.attributeNames.length < extra then none
  else
    let entries ← trailing? g node count
    return { node with
      inputs := node.inputs.take count
      attrs := entries.foldl addFolded node.attrs }

/-- The node with its second operand folded, if it can be. -/
def foldOther? (g : Graph) (node : Node) : Option Node :=
  match node.kind.takesScalar, node.inputs with
  | true, [x, y] => do
    let other ← (g.scalarConstant? y).bind Attr.float?
    return { node with inputs := [x], attrs := node.attrs.insert "other" (.float other) }
  | _, _ => none

/-- Applies a change to a node of the graph and counts it. -/
def applyFold (fold? : Graph → Node → Option Node) (id : NodeId) (state : Graph × Nat) :
    Graph × Nat :=
  match (state.1.node? id).bind (fold? state.1) with
  | some node => (state.1.updateNode id fun _ => node, state.2 + 1)
  | none => state

/-- Folds one node. -/
def visit (state : Graph × Nat) (id : NodeId) : Graph × Nat :=
  applyFold foldOther? id (applyFold foldAttributes? id state)

/-- Folds every node; the count is the number of folds. -/
def run (g : Graph) : Graph × Nat := g.nodeIds.foldl visit (g, 0)

end HybridGraph.Folding

/-! ## Defaults

Missing attributes that have a default get it, and negative axes are wrapped where the rank is
known.  Nodes that still have attribute operands are left alone. -/

namespace HybridGraph.Defaults

/-- The defaults of a kind. -/
def ofKind : OpKind → List (String × Attr)
  | .leakyRelu => [("negative_slope", .float 0.01)]
  | .elu => [("alpha", .float 1.0), ("scale", .float 1.0), ("input_scale", .float 1.0)]
  | .hardtanh => [("min_val", .float (-1.0)), ("max_val", .float 1.0)]
  | .add | .sub => [("alpha", .int 1)]
  | .flatten => [("start_dim", .int 0), ("end_dim", .int (-1))]
  | .sum | .mean => [("keepdim", .bool false)]
  | .dropout => [("p", .float 0.5), ("train", .bool false)]
  | .constantPad => [("value", .float 0.0)]
  | .clamp => [("min", .none), ("max", .none)]
  | .gelu => [("approximate", .str "none")]
  | _ => []

/-- The axis attributes of a kind that are wrapped. -/
def axisNames : OpKind → List String
  | .softmax => ["dim"]
  | .cumsum | .transpose => ["dim", "dim0", "dim1"]
  | _ => []

/-- Whether no attribute is passed as an operand. -/
def isFolded (node : Node) : Bool :=
  match node.kind.tensorOperands? with
  | some count => node.inputs.length ≤ count
  | none => true

/-- Adds a default unless the attribute is there. -/
def addDefault (node : Node) (entry : String × Attr) : Node :=
  if node.attrs.contains entry.1 then node else node.setAttr entry.1 entry.2

/-- Wraps a negative axis that is in range. -/
def wrapAxis (rank : Nat) (node : Node) (name : String) : Node :=
  match node.int? name with
  | some axis => if axis < 0 ∧ 0 ≤ axis + rank then node.setAttr name (.int (axis + rank)) else node
  | none => node

/-- Whether a node has an axis to wrap. -/
def hasWrappable (rank : Nat) (node : Node) (name : String) : Bool :=
  match node.int? name with
  | some axis => axis < 0 && 0 ≤ axis + rank
  | none => false

/-- The rank of the first operand. -/
def operandRank? (g : Graph) (node : Node) : Option Nat :=
  (node.inputs.head?.bind g.tensorType?).bind TensorType.rank?

/-- The node with its defaults written out. -/
def normalize (g : Graph) (node : Node) : Node :=
  if isFolded node then
    let filled := (ofKind node.kind).foldl addDefault node
    match operandRank? g node with
    | some rank => (axisNames node.kind).foldl (wrapAxis rank) filled
    | none => filled
  else node

/-- Whether writing the defaults out changes a node. -/
def isIncomplete (g : Graph) (node : Node) : Bool :=
  isFolded node &&
    ((ofKind node.kind).any (fun entry => !node.attrs.contains entry.1) ||
      (operandRank? g node).any fun rank => (axisNames node.kind).any (hasWrappable rank node))

/-- Writes the defaults of every node out; the count is the number of nodes changed. -/
def run (g : Graph) : Graph × Nat :=
  ({ g with nodes := g.nodes.map (normalize g) }, (g.nodes.filter (isIncomplete g)).length)

end HybridGraph.Defaults

/-! ## Identities

Dropout outside training, a conversion to the operand's own element type and `contiguous` answer
their operand; their readers read the operand instead. -/

namespace HybridGraph.Identities

/-- Whether a node answers its only operand. -/
def isIdentity (g : Graph) (node : Node) : Bool :=
  match node.inputs, node.outputs with
  | [x], [_] =>
    match node.kind with
    | .dropout => node.bool? "train" == some false
    | .contiguous => true
    | .to =>
      match node.dtype? "dtype" with
      | some target => node.bool? "copy" != some true && g.dtype? x == some target
      | none => false
    | _ => false
  | _, _ => false

/-- Retires a node.  Its operand is read from the graph as it is now, since an identity before it
may have been retired. -/
def visit (state : Graph × Nat) (id : NodeId) : Graph × Nat :=
  match state.1.node? id with
  | none => state
  | some node =>
    match node.inputs, node.outputs with
    | x :: _, out :: _ => (state.1.retire id out x, state.2 + 1)
    | _, _ => state

/-- The ids of the identities. -/
def found (g : Graph) : List NodeId := (g.nodes.filter (isIdentity g)).map Node.id

/-- Retires every identity; the count is the number of them. -/
def run (g : Graph) : Graph × Nat := (found g).foldl visit (g, 0)

end HybridGraph.Identities
