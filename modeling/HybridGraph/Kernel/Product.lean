import HybridGraph.Kernel.Broadcast
/-!
# Matrix products

Products over the last two axes; the axes before them broadcast.  A vector on the left counts as a
row and on the right as a column, and the axis it gained is dropped from the result.
-/

namespace HybridGraph.Kernel

/-- Shapes of a product once vectors have become matrices. -/
structure ProductShape where
  lhs : List Nat
  rhs : List Nat
  batch : List Nat
  rows : Nat
  inner : Nat
  columns : Nat

/-- Extents of the axes before the last two. -/
def batchExtents (dims : List Nat) : List Nat := dims.take (dims.length - 2)

/-- Aligns two operands; inner extents must agree and the batch axes must broadcast. -/
def productShape (lhs rhs : List Nat) : Except KernelError ProductShape := do
  if lhs.isEmpty ∨ rhs.isEmpty then throw .vectorRank
  let a := if lhs.length = 1 then 1 :: lhs else lhs
  let b := if rhs.length = 1 then rhs ++ [1] else rhs
  let inner := extentFromEnd a 0
  if inner ≠ extentFromEnd b 1 then throw (.innerExtents lhs rhs)
  let batch ← broadcastShape (batchExtents a) (batchExtents b)
  return ⟨a, b, batch, extentFromEnd a 1, inner, extentFromEnd b 0⟩

/-- One element of a product: the sum over the inner axis in increasing order, from zero. -/
def productElement {α : Type} [OfNat α 0] [Add α] [Mul α] (s : ProductShape) (a b : Array α)
    (index : Nat) : Except KernelError α :=
  let block := index / (s.rows * s.columns)
  let row := index / s.columns % s.rows
  let column := index % s.columns
  (List.range s.inner).foldlM
    (fun sum k => return sum + (← fetch a (block * (s.rows * s.inner) + (row * s.inner + k))) *
      (← fetch b (block * (s.inner * s.columns) + (k * s.columns + column)))) 0

/-- How many blocks the batch has, as the loop over it counts them. -/
def ProductShape.blocks (s : ProductShape) : Nat := word (elementCount s.batch)

/-- The numbers that a product makes room for: both operands, broadcast, and the result. -/
def ProductShape.counts (s : ProductShape) : List Nat :=
  [s.blocks * s.rows * s.inner, s.blocks * s.inner * s.columns, s.blocks * s.rows * s.columns]

/-- The elements of a product of two operands. -/
def productValues {α : Type} [OfNat α 0] [Add α] [Mul α] (s : ProductShape) (lhs rhs : Array α) :
    Except KernelError (Array α) := do
  s.counts.forM needRoom
  let a ← broadcastValues lhs s.lhs (s.batch ++ [s.rows, s.inner])
  let b ← broadcastValues rhs s.rhs (s.batch ++ [s.inner, s.columns])
  (Array.range (s.blocks * s.rows * s.columns)).mapM (productElement s a b)

/-- The product of two tensors. -/
def matmul (lhs rhs : Tensor) : Except KernelError Tensor := do
  let s ← productShape lhs.dims rhs.dims
  let out ← productValues s lhs.doubles rhs.doubles
  let dims := s.batch ++ (if lhs.rank = 1 then [] else [s.rows]) ++
    (if rhs.rank = 1 then [] else [s.columns])
  build (promote lhs.dtype rhs.dtype) dims out

end HybridGraph.Kernel
