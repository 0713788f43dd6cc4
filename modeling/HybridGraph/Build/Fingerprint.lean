import HybridGraph.Build.Boundary
import HybridGraph.Digest
import HybridGraph.Partition.Basic
/-!
# Fingerprints of segments

A fingerprint says what a segment computes and leaves out what it is called: values are numbered in
the order in which they enter or are defined, and ids, names and module paths do not occur.
`Fingerprint.bytes` is the byte record that is hashed.
-/

namespace HybridGraph

/-! ## Numbering values -/

/-- Local numbers of values, each value once. -/
abbrev Numbering := List (ValueId × Nat)

namespace Numbering

/-- The number of a value. -/
def get? (numbers : Numbering) (v : ValueId) : Option Nat := numbers.lookup v

/-- Numbers a value that enters, unless it has a number. -/
def enter (numbers : Numbering) (v : ValueId) : Numbering :=
  if (numbers.get? v).isSome then numbers else (v, numbers.length) :: numbers

/-- Numbers a value that is defined, instead of its earlier number. -/
def define (numbers : Numbering) (v : ValueId) : Numbering :=
  (v, numbers.length) :: numbers.filter (·.1 ≠ v)

end Numbering

/-! ## Fingerprints -/

/-- What a fingerprint keeps of a node. -/
structure MemberRecord where
  kind : OpKind
  operands : List Nat
  results : Nat
  attrs : AttrList

/-- What a segment computes. -/
structure Fingerprint where
  inputs : List (DType × ShapeSpec)
  nodes : List MemberRecord
  outputs : List Nat

namespace Fingerprint

/-- The local number of an operand. -/
def operand (segment : Nat) (node : Node) (numbers : Numbering) (v : ValueId) :
    Except BuildError Nat :=
  match numbers.get? v with
  | some n => .ok n
  | none => .error ⟨segment, some node.id, .unbound v⟩

/-- Adds a member: its operands must have numbers, its results get new ones. -/
def addMember (g : Graph) (segment : Nat) (state : Numbering × List MemberRecord)
    (id : NodeId) : Except BuildError (Numbering × List MemberRecord) := do
  let (numbers, nodes) := state
  let some node := g.node? id | throw ⟨segment, none, .unknownMember id⟩
  let operands ← node.inputs.mapM (operand segment node numbers)
  let entry : MemberRecord := ⟨node.kind, operands, node.outputs.length, node.attrs⟩
  return (node.outputs.foldl Numbering.define numbers, nodes ++ [entry])

/-- The fingerprint of a segment. -/
def ofSegment (g : Graph) (s : Segment) (inputs : List BoundaryInput) :
    Except BuildError Fingerprint := do
  let entered : Numbering := (inputs.map BoundaryInput.value).foldl Numbering.enter []
  let (numbers, nodes) ← s.nodes.foldlM (addMember g s.id) (entered, [])
  return {
    inputs := inputs.map fun input => (input.engine, input.shape)
    nodes
    outputs := s.outputs.filterMap (Numbering.get? numbers) }

end Fingerprint

/-! ## Byte records -/

/-- The byte record of an element type. -/
def DType.bytes (t : DType) : Digest.Bytes := Digest.tag t.index

/-- The byte record of extents. -/
def extentBytes (dims : List Nat) : Digest.Bytes := Digest.list Digest.word dims

/-- The byte record of shapes. -/
def ShapeSpec.bytes : ShapeSpec → Digest.Bytes
  | .fixed dims => Digest.tag 0 ++ extentBytes dims
  | .ranged min opt max => Digest.tag 1 ++ extentBytes min ++ extentBytes opt ++ extentBytes max

/-- The byte record of elements. -/
def Elements.bytes : Elements → Digest.Bytes
  | .f32 v => Digest.tag 0 ++ Digest.list Digest.single v.toList
  | .f64 v => Digest.tag 1 ++ Digest.list Digest.double v.toList
  | .i32 v => Digest.tag 2 ++ Digest.list (fun n => Digest.signed 4 n.toInt) v.toList
  | .i64 v => Digest.tag 3 ++ Digest.list (fun n => Digest.signed 8 n.toInt) v.toList
  | .bool v => Digest.tag 4 ++ Digest.list (fun n => [n]) v.toList

/-- The byte record of a tensor. -/
def Tensor.bytes (t : Tensor) : Digest.Bytes := t.dtype.bytes ++ extentBytes t.dims ++ t.data.bytes

/-- The byte record of an attribute. -/
def Attr.bytes : Attr → Digest.Bytes
  | .none => Digest.tag 0
  | .int n => Digest.tag 1 ++ Digest.signed 8 n
  | .float x => Digest.tag 2 ++ Digest.double x
  | .bool b => Digest.tag 3 ++ Digest.bool b
  | .str s => Digest.tag 4 ++ Digest.text s
  | .ints ns => Digest.tag 5 ++ Digest.list (Digest.signed 8) ns
  | .floats xs => Digest.tag 6 ++ Digest.list Digest.double xs
  | .tensor t => Digest.tag 7 ++ t.bytes
  | .dtype t => Digest.tag 8 ++ t.bytes

/-- The byte record of attributes, in the order of their names. -/
def AttrList.bytes (attrs : AttrList) : Digest.Bytes :=
  Digest.list (fun entry => Digest.text entry.1 ++ entry.2.bytes) attrs.entries

/-- The byte record of a node. -/
def MemberRecord.bytes (node : MemberRecord) : Digest.Bytes :=
  Digest.tag node.kind.index ++ Digest.list Digest.word node.operands ++
    Digest.word node.results ++ node.attrs.bytes

namespace Fingerprint

/-- The byte record of a fingerprint. -/
def bytes (f : Fingerprint) : Digest.Bytes :=
  Digest.list (fun input => input.1.bytes ++ input.2.bytes) f.inputs ++
    Digest.list MemberRecord.bytes f.nodes ++ Digest.list Digest.word f.outputs

/-- The hash of a fingerprint. -/
def hash (f : Fingerprint) : UInt64 := Digest.fnv1a f.bytes

end Fingerprint

end HybridGraph
