import HybridGraph.Kernel.Layout
/-!
# Moving elements

Permutation of axes, padding, and reshaping: every element of the result is an element of the
operand, or the padding value.
-/

namespace HybridGraph.Kernel

/-! ## Permutation -/

/-- Whether a list names each of its own positions once. -/
def isPermutation (perm : List Nat) : Bool := perm.all (· < perm.length) && decide perm.Nodup

/-- The elements of a permuted operand. -/
def permuteValues {α : Type} (values : Array α) (dims perm : List Nat) :
    Except KernelError (Array α) :=
  let target := perm.map (extentAt dims)
  let steps := perm.map fun axis => (strides dims).getD axis 0
  gather values values.size fun index => dot (unravel target index) steps

/-- The permutation that exchanges two axes. -/
def exchange (rank a b : Nat) : List Nat :=
  (List.range rank).map fun axis => if axis = a then b else if axis = b then a else axis

/-- Reorders the axes: axis `k` of the result is axis `perm[k]` of the operand. -/
def permute (x : Tensor) (perm : List Nat) : Except KernelError Tensor := do
  if perm.length ≠ x.rank then .error (.permutationRank perm x.rank)
  else if !isPermutation perm then .error (.notPermutation perm)
  else
    let out ← permuteValues x.doubles x.dims perm
    build x.dtype (perm.map (extentAt x.dims)) out

/-! ## Reshaping -/

/-- The extents of a reshape target, `none` where one is inferred; `axis` is the position of the
first entry, and `inferred` says whether an earlier one is inferred. -/
def targetExtents (dims : List Nat) (whole : List Int) (zeroCopies : Bool) :
    Nat → Bool → List Int → Except KernelError (List (Option Nat))
  | _, _, [] => .ok []
  | axis, inferred, extent :: rest =>
    if extent = -1 then
      if inferred then .error (.inferredTwice whole)
      else return none :: (← targetExtents dims whole zeroCopies (axis + 1) true rest)
    else if extent = 0 ∧ zeroCopies = true then
      match dims[axis]? with
      | some copied =>
        return some copied :: (← targetExtents dims whole zeroCopies (axis + 1) inferred rest)
      | none => .error (.copiedAxis whole axis dims.length)
    else if 0 ≤ extent then
      return some extent.toNat :: (← targetExtents dims whole zeroCopies (axis + 1) inferred rest)
    else .error (.badExtent extent whole)

/-- Resolves a reshape target.  One `-1` is inferred from the number of elements; with
`zeroCopies` a `0` copies the operand's extent at the same position.  `keep` says what is kept of
the numbers of elements. -/
def targetShapeIn (keep : Nat → Nat) (dims : List Nat) (target : List Int) (zeroCopies : Bool) :
    Except KernelError (List Nat) := do
  let extents ← targetExtents dims target zeroCopies 0 false target
  let total := keep (elementCount dims)
  let known := keep (elementCount (extents.map (·.getD 1)))
  if extents.contains none then
    if known = 0 ∨ total % known ≠ 0 then .error (.reshape dims target)
    else return extents.map (·.getD (total / known))
  else if known ≠ total then .error (.reshape dims target)
  else return extents.map (·.getD 1)

/-- Resolves a reshape target on numbers of any size. -/
def targetShape : List Nat → List Int → Bool → Except KernelError (List Nat) := targetShapeIn id

/-- Resolves a reshape target as it is run, on numbers of elements that are words. -/
def resolveShape : List Nat → List Int → Bool → Except KernelError (List Nat) := targetShapeIn word

/-- The same elements under other extents. -/
def reshape (x : Tensor) (dims : List Nat) : Except KernelError Tensor :=
  (x.reshape dims).mapError .tensor

/-! ## Padding -/

/-- The padded extents. -/
def paddedExtents : Nat → List Nat → List Int → List Int → Except KernelError (List Nat)
  | axis, extent :: dims, before :: pre, after :: post =>
    let padded := signed ((extent : Int) + before + after)
    if padded < 0 then .error (.cropped axis)
    else return padded.toNat :: (← paddedExtents (axis + 1) dims pre post)
  | _, _, _, _ => .ok []

/-- The operand's flat index under coordinates of the result, if they lie inside the operand.  A
difference that 64 bits do not hold is outside either way. -/
def paddedSource? : List Nat → List Nat → List Nat → List Int → Option Nat
  | coord :: coords, extent :: dims, stride :: steps, before :: pre =>
    let shifted := (coord : Int) - before
    if shifted < 0 ∨ (extent : Int) ≤ shifted then none
    else (paddedSource? coords dims steps pre).map (shifted.toNat * stride + ·)
  | _, _, _, _ => some 0

/-- The elements of a padded operand. -/
def padValues {α : Type} (values : Array α) (dims target : List Nat) (pre : List Int)
    (filler : α) : Except KernelError (Array α) :=
  (Array.range (word (elementCount target))).mapM fun index =>
    match paddedSource? (unravel target index) dims (strides dims) pre with
    | some source => fetch values source
    | none => .ok filler

/-- The two amounts of each axis, the last axis first, as amounts before and amounts after. -/
def pairedAmounts : List Int → List Int × List Int
  | before :: after :: rest =>
    let (pre, post) := pairedAmounts rest
    (pre ++ [before], post ++ [after])
  | _ => ([], [])

/-- The amounts before and after each axis of a rank; axes that the pairs do not reach get none. -/
def padSides (rank : Nat) (amounts : List Int) : List Int × List Int :=
  let (pre, post) := pairedAmounts amounts
  let rest := List.replicate (rank - amounts.length / 2) 0
  (rest ++ pre, rest ++ post)

/-- Adds elements before and after each axis; negative amounts crop. -/
def pad (x : Tensor) (pre post : List Int) (value : Float) : Except KernelError Tensor := do
  if pre.length ≠ x.rank ∨ post.length ≠ x.rank then
    .error (.padRank pre.length post.length x.rank)
  else
    let target ← paddedExtents 0 x.dims pre post
    needRoom (word (elementCount target))
    build x.dtype target (← padValues x.doubles x.dims target pre value)

end HybridGraph.Kernel
