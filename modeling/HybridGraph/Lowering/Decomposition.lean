import HybridGraph.Lowering.Basic
/-!
# Decomposing composite operations

`linear`, `silu` and `gelu` become nodes that engines know:

    linear(x, w, b)   x · permute(w) + b
    silu(x)           x · sigmoid(x)
    gelu(x)           0.5 · x · (1 + erf(x / √2))
    gelu(x), tanh     0.5 · x · (1 + tanh(√(2/π) · (x + 0.044715 · x³)))

The new nodes stand in front of the old one, in its scope.
-/

namespace HybridGraph

/-! ## Emitting nodes -/

/-- A graph, the place for the next new node, and the scope of the new nodes. -/
structure Expansion where
  graph : Graph
  position : Nat
  scope : Option String

namespace Expansion

/-- Starts in front of a node. -/
def before? (g : Graph) (id : NodeId) : Option Expansion := do
  let position ← g.position? id
  let node ← g.nodes[position]?
  return ⟨g, position, node.scope⟩

/-- Emits a node with one result.  The result is the one of the first node with the new id. -/
def emit (e : Expansion) (kind : OpKind) (inputs : List ValueId) (type : ValueType)
    (attrs : AttrList) : Expansion × ValueId :=
  let (graph, id, outputs) := e.graph.insertNode e.position kind inputs [type] attrs e.scope
  let result := ((graph.node? id).bind fun node => node.outputs.head?) <|> outputs.head?
  ({ e with graph, position := e.position + 1 }, result.getD ⟨0⟩)

/-- Emits a node that reads one operand and a number. -/
def emitScalar (e : Expansion) (kind : OpKind) (x : ValueId) (other : Float) (type : ValueType) :
    Expansion × ValueId :=
  let alpha := if kind = .add ∨ kind = .sub then [("alpha", Attr.int 1)] else []
  e.emit kind [x] type (.ofList (("other", .float other) :: alpha))

end Expansion

namespace Decomposition

/-- What to do with a node. -/
inductive Verdict where
  | keep
  | replaced (graph : Graph)
  | refuse (fault : LoweringFault)

/-- Visits nodes by id until one is refused; `count` nodes have been replaced so far. -/
def visitAll (pass : String) (visit : Graph → Node → Verdict) :
    Graph → Nat → List NodeId → Lowered
  | g, count, [] => (g, .ok (.ofModified count))
  | g, count, id :: ids =>
    match g.node? id with
    | none => visitAll pass visit g count ids
    | some node =>
      match visit g node with
      | .keep => visitAll pass visit g count ids
      | .replaced g => visitAll pass visit g (count + 1) ids
      | .refuse fault => (g, .error (.unexpected pass node.id node.kind fault))

/-- Visits the nodes of a kind. -/
def visitKind (pass : String) (kind : OpKind) (visit : Graph → Node → Verdict) (g : Graph) :
    Lowered :=
  visitAll pass visit g 0 ((g.nodes.filter (·.kind = kind)).map Node.id)

/-- Retires a node: the readers of `old` read the emitted value. -/
def finish (id : NodeId) (old : ValueId) (emitted : Expansion × ValueId) : Verdict :=
  .replaced (emitted.1.graph.retire id old emitted.2)

/-- The attribute of a plain sum. -/
def plainSum : AttrList := .ofList [("alpha", .int 1)]

/-! ## Linear maps -/

/-- The type of a permuted weight. -/
def permutedType : ValueType → ValueType
  | .tensor t => .tensor t.transposed
  | other => other

/-- Emits a linear map. -/
def emitLinear (e : Expansion) (x weight : ValueId) (bias? : Option ValueId)
    (weightType outType : ValueType) : Expansion × ValueId :=
  let (e, permuted) := e.emit .permute [weight] weightType (.ofList [("dims", .ints [1, 0])])
  let (e, product) := e.emit .matmul [x, permuted] outType .empty
  match bias? with
  | some bias => e.emit .add [product, bias] outType plainSum
  | none => (e, product)

/-- Expands a linear map whose operands are tensors; a weight known not to be a matrix is
refused. -/
def linear (g : Graph) (node : Node) : Verdict :=
  match node.inputs with
  | x :: weight :: rest =>
    if !node.inputs.all g.isTensor then .keep
    else
      let rank? := (g.tensorType? weight).bind TensorType.rank?
      if rank?.any (· != 2) then .refuse (.weightRank (rank?.getD 0))
      else match node.outputs, Expansion.before? g node.id with
        | out :: _, some e =>
          finish node.id out
            (emitLinear e x weight rest.head? (permutedType (g.typeOf weight)) (g.typeOf out))
        | _, _ => .keep
  | _ => .keep

/-! ## Gated functions -/

/-- Emits `x · sigmoid(x)`. -/
def emitSilu (e : Expansion) (x : ValueId) (type outType : ValueType) : Expansion × ValueId :=
  let (e, gate) := e.emit .sigmoid [x] type .empty
  e.emit .mul [x, gate] outType .empty

/-- Expands a sigmoid-weighted unit. -/
def silu (g : Graph) (node : Node) : Verdict :=
  match node.inputs, node.outputs, Expansion.before? g node.id with
  | x :: _, out :: _, some e => finish node.id out (emitSilu e x (g.typeOf x) (g.typeOf out))
  | _, _, _ => .keep

/-- `1 / √2`. -/
def rootHalf : Float := 0.70710678118654752440

/-- `√(2 / π)`. -/
def rootTwoOverPi : Float := Float.sqrt 0.63661977236758134308

/-- Weight of the cubic term. -/
def cubicWeight : Float := 0.044715

/-- Emits `tanh(√(2/π) · (x + 0.044715 · x³))`. -/
def emitTanhTerm (e : Expansion) (x : ValueId) (type : ValueType) : Expansion × ValueId :=
  let (e, cube) := e.emitScalar .pow x 3.0 type
  let (e, scaled) := e.emitScalar .mul cube cubicWeight type
  let (e, sum) := e.emit .add [x, scaled] type plainSum
  let (e, argument) := e.emitScalar .mul sum rootTwoOverPi type
  e.emit .tanh [argument] type .empty

/-- Emits `erf(x / √2)`. -/
def emitErfTerm (e : Expansion) (x : ValueId) (type : ValueType) : Expansion × ValueId :=
  let (e, argument) := e.emitScalar .mul x rootHalf type
  e.emit .erf [argument] type .empty

/-- Emits `(0.5 · x) · (1 + t)` with the given inner term. -/
def emitGelu (e : Expansion) (x : ValueId) (useTanh : Bool) (type outType : ValueType) :
    Expansion × ValueId :=
  let (e, inner) := if useTanh then emitTanhTerm e x type else emitErfTerm e x type
  let (e, shifted) := e.emitScalar .add inner 1.0 type
  let (e, half) := e.emitScalar .mul x 0.5 type
  e.emit .mul [half, shifted] outType .empty

/-- Expands a Gaussian unit whose approximation is written on the node. -/
def gelu (options : LoweringOptions) (g : Graph) (node : Node) : Verdict :=
  match node.inputs, node.str? "approximate" with
  | [x], some name =>
    if name != "none" && name != "tanh" then .refuse (.approximation name)
    else match node.outputs, Expansion.before? g node.id with
      | out :: _, some e =>
        finish node.id out
          (emitGelu e x (name == "tanh" || options.approximateGelu) (g.typeOf x) (g.typeOf out))
      | _, _ => .keep
  | _, _ => .keep

end Decomposition

end HybridGraph
