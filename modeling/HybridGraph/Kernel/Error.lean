import HybridGraph.Tensor.Basic
/-!
# Kernel errors

Why a kernel refuses its operands.  Two of the errors stand for an abort: `outOfRange` for a read
past the elements of an operand, which cannot happen on well-formed tensors, and `noRoom` for more
numbers than one array can hold.
-/

namespace HybridGraph

/-- Why a kernel refuses its operands. -/
inductive KernelError where
  | tensor (cause : TensorError)
  | axisRange (axis : Int) (rank : Nat)
  | broadcast (lhs rhs : List Nat) (axis a b : Nat)
  | slopeCount (count : Nat) (dims : List Nat)
  | vectorRank
  | innerExtents (lhs rhs : List Nat)
  | permutationRank (perm : List Nat) (rank : Nat)
  | notPermutation (perm : List Nat)
  | inferredTwice (target : List Int)
  | copiedAxis (target : List Int) (axis rank : Nat)
  | badExtent (extent : Int) (target : List Int)
  | reshape (dims : List Nat) (target : List Int)
  | padRank (pre post rank : Nat)
  | cropped (axis : Nat)
  | softmaxAxis (axis : Nat) (dims : List Nat)
  | cumsumAxis (axis : Nat) (dims : List Nat)
  | reduceAxis (axis : Nat) (dims : List Nat)
  | operand (index : Nat)
  | outOfRange (index size : Nat)
  | noRoom (count : Nat)

/-- The wording of a kernel error. -/
def KernelError.message : KernelError → String
  | .tensor cause => cause.message
  | .axisRange axis rank => s!"axis {axis} out of range for rank {rank}"
  | .broadcast lhs rhs axis a b =>
    s!"shapes {Text.natList lhs} and {Text.natList rhs} do not broadcast (axis {axis}: {a} vs {b})"
  | .slopeCount count dims =>
    s!"prelu slope of {count} elements does not match channel axis of {Text.natList dims}"
  | .vectorRank => "matmul operands must have rank >= 1"
  | .innerExtents lhs rhs =>
    s!"matmul inner dimensions differ: {Text.natList lhs} x {Text.natList rhs}"
  | .permutationRank perm rank => s!"permutation {Text.natList perm} does not match rank {rank}"
  | .notPermutation perm => s!"{Text.natList perm} is not a permutation"
  | .inferredTwice target => s!"{Text.intList target} infers more than one axis"
  | .copiedAxis target axis rank =>
    s!"{Text.intList target} copies axis {axis} of rank-{rank} input"
  | .badExtent extent target => s!"invalid extent {extent} in {Text.intList target}"
  | .reshape dims target => s!"cannot reshape {Text.natList dims} into {Text.intList target}"
  | .padRank pre post rank => s!"padding of {pre} / {post} axes for rank {rank}"
  | .cropped axis => s!"padding crops axis {axis} below zero"
  | .softmaxAxis axis dims => s!"softmax axis {axis} out of range for {Text.natList dims}"
  | .cumsumAxis axis dims => s!"cumsum axis {axis} out of range for {Text.natList dims}"
  | .reduceAxis axis dims => s!"reduce axis {axis} out of range for {Text.natList dims}"
  | .operand index => s!"missing operand {index}"
  | .outOfRange index size => s!"element {index} of {size} does not exist"
  | .noRoom count => s!"room for {count} elements does not exist"

end HybridGraph
