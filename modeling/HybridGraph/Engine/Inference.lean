import HybridGraph.Engine.Layer
import HybridGraph.Kernel.Layout
import HybridGraph.Text.Chars
/-!
# Descriptors of layer results

`LayerKind.infer` computes the descriptor of a layer's result from those of its operands, some of
whose extents may be unknown, and refuses operands that the layer cannot take.
-/

namespace HybridGraph

/-- Why a layer refuses its operands. -/
inductive InferenceError where
  | operandCount (expected found : Nat)
  | needsFloat (found : DType)
  | operandTypes (lhs rhs : DType)
  | broadcast (lhs rhs : Dimension)
  | slopeRank (rank : Nat)
  | matrixRanks (lhs rhs : Nat)
  | innerExtents (lhs rhs : Nat)
  | padRank (covered rank : Nat)
  | cropped (extent : Nat)
  | notPermutation (perm : List Nat) (rank : Nat)
  | axisRange (axis rank : Nat)
  | inferredTwice (target : List Int)
  | copiedAxis (target : List Int) (axis rank : Nat)
  | badExtent (extent : Int) (target : List Int)
  | reshape (dims : List Dimension) (target : List Int)
deriving DecidableEq

/-- The wording of a refusal. -/
def InferenceError.message : InferenceError → String
  | .operandCount expected found => s!"expects {expected} inputs, got {found}"
  | .needsFloat found => s!"needs a float tensor, got {found.name}"
  | .operandTypes lhs rhs => s!"operand dtypes differ: {lhs.name} vs {rhs.name}"
  | .broadcast lhs rhs => s!"dimensions {lhs.text} and {rhs.text} do not broadcast"
  | .slopeRank rank => s!"slope must be rank 0 or 1, got rank {rank}"
  | .matrixRanks lhs rhs => s!"operands need rank >= 2, got {lhs} and {rhs}"
  | .innerExtents lhs rhs => s!"inner dimensions differ: {lhs} vs {rhs}"
  | .padRank covered rank => s!"padding covers {covered} axes of a rank-{rank} tensor"
  | .cropped extent => s!"padding crops extent {extent} below zero"
  | .notPermutation perm rank => s!"{Text.natList perm} is not a permutation of rank {rank}"
  | .axisRange axis rank => s!"axis {axis} out of range for rank {rank}"
  | .inferredTwice target => s!"{Text.intList target} infers more than one axis"
  | .copiedAxis target axis rank =>
    s!"{Text.intList target} copies axis {axis} of a rank-{rank} tensor"
  | .badExtent extent target => s!"invalid extent {extent} in {Text.intList target}"
  | .reshape dims target =>
    s!"cannot reshape {Text.bracketed Dimension.longText dims} into {Text.intList target}"

/-- Result of an inference. -/
abbrev Inferred (α : Type) := Except InferenceError α

namespace Inference

/-! ## Operands -/

/-- The only operand. -/
def one : List TensorSig → Inferred TensorSig
  | [x] => .ok x
  | operands => .error (.operandCount 1 operands.length)

/-- The two operands. -/
def two : List TensorSig → Inferred (TensorSig × TensorSig)
  | [x, y] => .ok (x, y)
  | operands => .error (.operandCount 2 operands.length)

/-- Refuses tensors that are not floating. -/
def needFloat (x : TensorSig) : Inferred Unit :=
  if x.dtype.isFloat then .ok () else .error (.needsFloat x.dtype)

/-- Refuses operands of different element types. -/
def needSameType (x y : TensorSig) : Inferred Unit :=
  if x.dtype = y.dtype then .ok () else .error (.operandTypes x.dtype y.dtype)

/-! ## Extents -/

/-- The extent that stands `fromEnd` axes before the last one. -/
def fromEnd (dims : List Dimension) (fromEnd : Nat) : Dimension :=
  if fromEnd < dims.length then dims.getD (dims.length - 1 - fromEnd) (.fixed 1) else .fixed 1

/-- The extent to which two broadcast; an unknown extent takes the other one. -/
def broadcastExtent (a b : Dimension) : Inferred Dimension :=
  if a = b then .ok a
  else if a = .fixed 1 then .ok b
  else if b = .fixed 1 then .ok a
  else match a, b with
    | .dynamic, .fixed n | .fixed n, .dynamic => .ok (.fixed n)
    | _, _ => .error (.broadcast a b)

/-- The extents to which two lists broadcast. -/
def broadcast (lhs rhs : List Dimension) : Inferred (List Dimension) :=
  let rank := max lhs.length rhs.length
  (List.range rank).mapM fun axis =>
    broadcastExtent (fromEnd lhs (rank - 1 - axis)) (fromEnd rhs (rank - 1 - axis))

/-- A padded extent. -/
def padExtent (before after : Int) : Dimension → Inferred Dimension
  | .dynamic => .ok .dynamic
  | .fixed n =>
    let padded := Kernel.signed ((n : Int) + before + after)
    if padded < 0 then .error (.cropped n) else .ok (.fixed padded.toNat)

/-- Padded extents, as far as all three lists reach. -/
def padExtents : List Dimension → List Int → List Int → Inferred (List Dimension)
  | dim :: dims, before :: pre, after :: post => do
    return (← padExtent before after dim) :: (← padExtents dims pre post)
  | _, _, _ => .ok []

/-- Number of elements, kept in a word, if all extents are known. -/
def count? (dims : List Dimension) : Option Nat :=
  (fixedExtents? dims).map fun extents => Kernel.word (elementCount extents)

/-- The extents of a reshape target from `axis` on; an inferred one is not known yet. -/
def targetExtents (dims : List Dimension) (whole : List Int) :
    Nat → List Int → Inferred (List Dimension)
  | _, [] => .ok []
  | axis, extent :: rest => do
    let dim ←
      if extent = -1 then pure .dynamic
      else if extent = 0 then
        match dims[axis]? with
        | some dim => pure dim
        | none => throw (.copiedAxis whole axis dims.length)
      else if 0 < extent then pure (.fixed extent.toNat)
      else throw (.badExtent extent whole)
    return dim :: (← targetExtents dims whole (axis + 1) rest)

/-- Extents after a reshape.  A zero copies, and one `-1` is inferred when all else is known. -/
def reshape (dims : List Dimension) (target : List Int) : Inferred (List Dimension) := do
  if 1 < target.count (-1) then throw (.inferredTwice target)
  let out ← targetExtents dims target 0 target
  let place := target.idxOf (-1)
  if target.length ≤ place then return out
  match count? dims, count? (out.eraseIdx place) with
  | some total, some known =>
    if known = 0 ∨ total % known ≠ 0 then throw (.reshape dims target)
    return out.set place (.fixed (total / known))
  | _, _ => return out

/-- Whether a list names every axis of a rank once. -/
def isPermutationOf (perm : List Nat) (rank : Nat) : Bool :=
  perm.length == rank && perm.all (· < rank) && decide perm.Nodup

/-- Extents after a permutation and a reshape. -/
def shuffleExtents (dims : List Dimension) (permutation : Option (List Nat))
    (target : Option (List Int)) : Inferred (List Dimension) := do
  let dims ← match permutation with
    | none => pure dims
    | some perm =>
      if isPermutationOf perm dims.length then
        pure (perm.map fun axis => dims.getD axis (.fixed 1))
      else throw (.notPermutation perm dims.length)
  match target with
  | none => return dims
  | some target => reshape dims target

/-- Extents after a reduction. -/
def reduceExtents (dims : List Dimension) (axes : List Nat) (keepDims : Bool) : List Dimension :=
  dims.zipIdx.filterMap fun (dim, axis) =>
    if !axes.contains axis then some dim else if keepDims then some (.fixed 1) else none

/-- Refuses an axis outside the rank; rank zero counts as one. -/
def needAxis (axis rank : Nat) : Inferred Unit :=
  if axis < max rank 1 then .ok () else .error (.axisRange axis rank)

/-- Extents of a product over the last two axes. -/
def productExtents (lhs rhs : List Dimension) : Inferred (List Dimension) := do
  if lhs.length < 2 ∨ rhs.length < 2 then throw (.matrixRanks lhs.length rhs.length)
  match fromEnd lhs 0, fromEnd rhs 1 with
  | .fixed a, .fixed b => if a ≠ b then throw (.innerExtents a b)
  | _, _ => pure ()
  let batch ← broadcast (lhs.take (lhs.length - 2)) (rhs.take (rhs.length - 2))
  return batch ++ [fromEnd lhs 1, fromEnd rhs 0]

end Inference

open Inference in
/-- The descriptor of a layer's result. -/
def LayerKind.infer (kind : LayerKind) (operands : List TensorSig) : Inferred TensorSig := do
  match kind with
  | .constant tensor =>
    if operands.isEmpty then return .of tensor.dtype tensor.dims
    else throw (.operandCount 0 operands.length)
  | .activation _ =>
    let x ← one operands
    needFloat x
    return x
  | .unary op =>
    let x ← one operands
    if op ≠ .neg ∧ op ≠ .abs then needFloat x
    return x
  | .elementWise op =>
    let (x, y) ← two operands
    needSameType x y
    if op = .pow then needFloat x
    return ⟨x.dtype, ← broadcast x.dims y.dims⟩
  | .parametricRelu =>
    let (x, slope) ← two operands
    needFloat x
    if 1 < slope.rank then throw (.slopeRank slope.rank)
    return x
  | .matrixMultiply =>
    let (x, y) ← two operands
    needFloat x
    needSameType x y
    return ⟨x.dtype, ← productExtents x.dims y.dims⟩
  | .pad pre post _ =>
    let x ← one operands
    if pre.length ≠ x.rank ∨ post.length ≠ x.rank then throw (.padRank pre.length x.rank)
    return ⟨x.dtype, ← padExtents x.dims pre post⟩
  | .shuffle permutation target =>
    let x ← one operands
    return ⟨x.dtype, ← shuffleExtents x.dims permutation target⟩
  | .softmax axis =>
    let x ← one operands
    needFloat x
    needAxis axis x.rank
    return x
  | .reduce op axes keepDims =>
    let x ← one operands
    if op = .mean then needFloat x
    axes.forM (needAxis · x.rank)
    return ⟨x.dtype, reduceExtents x.dims axes keepDims⟩
  | .identity dtype =>
    let x ← one operands
    return ⟨dtype, x.dims⟩

end HybridGraph
