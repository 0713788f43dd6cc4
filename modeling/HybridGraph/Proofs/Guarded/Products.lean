import HybridGraph.Proofs.Guarded.Broadcasting
import HybridGraph.Proofs.Kernel.Products
/-!
# Guarded matrix products

A product goes through its batch block by block.  It slices both operands and the result, and walks
through rows, columns and the inner axis of the slices.  Every slice ends inside its operand and
every index inside its slice, empty blocks and vectors included:

    lhs.WellFormed → rhs.WellFormed →
      Ends Proper WellFormed (matmul lhs rhs) (Kernel.matmul lhs rhs)                 (matmul_ends)

With the sums that the elements are (`Kernel.exists_matmul`) this is all there is to say about a
product of operands that have axes (`Kernel.matmul_batched`).
-/

namespace HybridGraph

/-- Numbers below a product, as numbers below its factors. -/
theorem Outcome.mapM_range_mul {m : Type → Type} [Monad m] [LawfulMonad m] {α : Type} (a b : ℕ)
    (f : ℕ → m α) : (List.range (a * b)).mapM f =
      (List.range a).mapM (fun i => (List.range b).mapM fun j => f (i * b + j)) >>=
        fun blocks => pure blocks.flatten := by
  induction a with
  | zero => simp
  | succ a ih =>
    rw [Nat.succ_mul, List.range_add, List.mapM_append, ih, List.range_succ, List.mapM_append,
      List.mapM_map]
    simp [Function.comp_def]

namespace Kernel

/-- An operand of a product broadcasts to its matrices over the common batch. -/
theorem broadcasts_append {dims batch : List ℕ} {m n : ℕ} (hrank : 2 ≤ dims.length)
    (hm : extentFromEnd dims 1 = m) (hn : extentFromEnd dims 0 = n)
    (h : Broadcasts (batchExtents dims) batch) : Broadcasts dims (batch ++ [m, n]) := by
  have hne : dims ≠ [] := List.ne_nil_of_length_pos (Nat.zero_lt_of_lt hrank)
  obtain ⟨bl, rows, inner, hmatrix⟩ := exists_leftMatrix hne
  cases hmatrix with
  | row => simp at hrank
  | stack =>
    obtain ⟨hrows, hinner⟩ := extentFromEnd_stack bl rows inner
    rw [batchExtents_stack] at h
    obtain rfl := hrows.symm.trans hm
    obtain rfl := hinner.symm.trans hn
    exact h.append _

end Kernel

namespace Guarded

open Kernel (Broadcasts ProductShape)

variable {ε α : Type}

/-! ## Shapes -/

/-- Aligns two operands; inner extents must agree and the batch axes must broadcast. -/
def productShape (lhs rhs : List ℕ) : Guarded KernelError ProductShape := do
  if lhs.isEmpty ∨ rhs.isEmpty then throw .vectorRank
  else
    let a := if lhs.length = 1 then 1 :: lhs else lhs
    let b := if rhs.length = 1 then rhs ++ [1] else rhs
    let rows ← entry a (← difference a.length 2)
    let inner ← entry a (← difference a.length 1)
    let inner' ← entry b (← difference b.length 2)
    let columns ← entry b (← difference b.length 1)
    if inner ≠ inner' then throw (.innerExtents lhs rhs)
    else
      let batch ← broadcastShape (← front a (← difference a.length 2))
        (← front b (← difference b.length 2))
      return ⟨a, b, batch, rows, inner, columns⟩

/-- The operands of a product, with as many elements as before, broadcast to its matrices. -/
structure Aligned (lhs rhs : List ℕ) (s : ProductShape) : Prop where
  left : Broadcasts s.lhs (s.batch ++ [s.rows, s.inner])
  right : Broadcasts s.rhs (s.batch ++ [s.inner, s.columns])
  leftCount : elementCount s.lhs = elementCount lhs
  rightCount : elementCount s.rhs = elementCount rhs

theorem entry_fromEnd {dims : List ℕ} {k : ℕ} (h : k < dims.length) :
    (entry dims (dims.length - (k + 1)) : Guarded ε ℕ) = pure (Kernel.extentFromEnd dims k) := by
  have hback : dims.length - 1 - (dims.length - (k + 1)) = k := by omega
  rw [entry_of_lt (by omega), Kernel.getElem_eq_extentFromEnd, hback]

theorem productShape_ends (lhs rhs : List ℕ) :
    Ends KernelError.Proper (Aligned lhs rhs) (productShape lhs rhs)
      (Kernel.productShape lhs rhs) := by
  unfold productShape Kernel.productShape
  split
  · exact .error trivial
  next hvectors =>
  simp only [List.isEmpty_iff, not_or, ← List.length_eq_zero_iff] at hvectors
  generalize ha : (if lhs.length = 1 then 1 :: lhs else lhs) = a
  generalize hb : (if rhs.length = 1 then rhs ++ [1] else rhs) = b
  have hleft : 2 ≤ a.length ∧ elementCount a = elementCount lhs := by
    rw [← ha]
    split
    · exact ⟨by simp; omega, by simp⟩
    · exact ⟨by omega, rfl⟩
  have hright : 2 ≤ b.length ∧ elementCount b = elementCount rhs := by
    rw [← hb]
    split
    · exact ⟨by simp; omega, by simp⟩
    · exact ⟨by omega, rfl⟩
  dsimp only
  rw [difference_of_le hleft.1, pure_bind, entry_fromEnd (k := 1) (by omega), pure_bind,
    difference_of_le (by omega), pure_bind, entry_fromEnd (k := 0) (by omega), pure_bind,
    difference_of_le hright.1, pure_bind, entry_fromEnd (k := 1) (by omega), pure_bind,
    difference_of_le (by omega), pure_bind, entry_fromEnd (k := 0) (by omega), pure_bind]
  split
  · exact .error trivial
  next hinner =>
  rw [pure_bind, front_of_le (by omega), pure_bind, pure_bind, front_of_le (by omega), pure_bind]
  refine (broadcastShape_ends _ _).bind fun batch hbatch _ => .pure ?_
  obtain ⟨hlhs, hrhs⟩ := Kernel.broadcasts_of_broadcastShape hbatch
  exact ⟨Kernel.broadcasts_append hleft.1 rfl rfl hlhs,
    Kernel.broadcasts_append hright.1 (not_not.mp hinner).symm rfl hrhs, hleft.2, hright.2⟩

/-! ## Elements -/

section

variable [OfNat α 0] [Add α] [Mul α]

/-- One element of a block: the sum over the inner axis in increasing order, from zero. -/
def productElement (s : ProductShape) (a b : Array α) (row column : ℕ) : Guarded ε α :=
  (List.range s.inner).foldlM
    (fun sum k => return sum + (← read a (row * s.inner + k)) * (← read b (k * s.columns + column)))
    0

/-- One block of the batch, row by row. -/
def productBlock (s : ProductShape) (a b : Array α) (number : ℕ) : Guarded ε (List α) := do
  let a ← block a (number * s.rows * s.inner) ((number + 1) * s.rows * s.inner)
  let b ← block b (number * s.inner * s.columns) ((number + 1) * s.inner * s.columns)
  let rows ← (List.range s.rows).mapM fun row =>
    (List.range s.columns).mapM fun column => do
      within (row * s.columns + column) (s.rows * s.columns)
      productElement s a b row column
  return rows.flatten

/-- The elements of a product of two operands. -/
def productValues (s : ProductShape) (lhs rhs : Array α) : Guarded KernelError (Array α) := do
  plain (s.counts.forM Kernel.needRoom)
  let a ← broadcastValues lhs s.lhs (s.batch ++ [s.rows, s.inner])
  let b ← broadcastValues rhs s.rhs (s.batch ++ [s.inner, s.columns])
  let blocks ← (List.range s.blocks).mapM fun number => do
    span (number * s.rows * s.columns) ((number + 1) * s.rows * s.columns)
      (s.blocks * s.rows * s.columns)
    productBlock s a b number
  return blocks.flatten.toArray

end

/-- The product of two tensors. -/
def matmul (lhs rhs : Tensor) : Guarded KernelError Tensor := do
  let s ← productShape lhs.dims rhs.dims
  let out ← productValues s lhs.doubles rhs.doubles
  let dims := s.batch ++ (if lhs.rank = 1 then [] else [s.rows]) ++
    (if rhs.rank = 1 then [] else [s.columns])
  plain (Kernel.build (Kernel.promote lhs.dtype rhs.dtype) dims out)

section

variable {s : ProductShape} {a b : Array α} {batches number row column : ℕ}
  {p : KernelError → Prop}

/-- A block of `m` rows and `n` columns ends inside the blocks of its batch. -/
theorem block_le {m n : ℕ} (hnumber : number < batches) :
    number * m * n ≤ (number + 1) * m * n ∧ (number + 1) * m * n ≤ batches * m * n :=
  ⟨Nat.mul_le_mul_right n (Nat.mul_le_mul_right m (Nat.le_succ number)),
    Nat.mul_le_mul_right n (Nat.mul_le_mul_right m hnumber)⟩

/-- Inside a block an element is read as it is read in the whole operand. -/
theorem read_block_ends {m n i j : ℕ} (hsize : batches * m * n ≤ a.size)
    (hnumber : number < batches) (hi : i < m) (hj : j < n) :
    Ends p (fun _ => True)
      (read (a.extract (number * m * n) ((number + 1) * m * n)) (i * n + j))
      (Kernel.fetch a (number * (m * n) + (i * n + j))) := by
  obtain ⟨hfirst, hlast⟩ := block_le hnumber (m := m) (n := n)
  have hplace : i * n + j < m * n := Kernel.mul_add_lt hi hj
  have hblock : (number + 1) * m * n = number * m * n + m * n := by
    rw [Nat.succ_mul, Nat.add_mul]
  have hinside : number * m * n + (i * n + j) < a.size := by omega
  have hextract : i * n + j < (a.extract (number * m * n) ((number + 1) * m * n)).size := by
    rw [Array.size_extract]
    omega
  rw [read_of_lt hextract, Array.getElem_extract, ← Nat.mul_assoc, ← read_of_lt hinside]
  exact read_ends hinside

variable [OfNat α 0] [Add α] [Mul α]

theorem productElement_ends (ha : batches * s.rows * s.inner ≤ a.size)
    (hb : batches * s.inner * s.columns ≤ b.size) (hnumber : number < batches)
    (hrow : row < s.rows) (hcolumn : column < s.columns) :
    Ends p (fun _ => True)
      (productElement s (a.extract (number * s.rows * s.inner) ((number + 1) * s.rows * s.inner))
        (b.extract (number * s.inner * s.columns) ((number + 1) * s.inner * s.columns)) row column)
      (Kernel.productElement s a b
        (number * (s.rows * s.columns) + (row * s.columns + column))) := by
  rw [Kernel.productElement_at hrow hcolumn]
  unfold productElement
  refine .foldlM (q := fun _ => True) (fun sum _ k hk => ?_) trivial
  have hk := List.mem_range.mp hk
  refine (read_block_ends ha hnumber hrow hk).bind fun x _ _ => ?_
  refine (read_block_ends hb hnumber hk hcolumn).bind fun y _ _ => .pure trivial

/-- Fewer blocks are gone through than a batch has that a word does not hold. -/
theorem blocks_mul_le (s : ProductShape) (m n : ℕ) :
    s.blocks * m * n ≤ elementCount (s.batch ++ [m, n]) := by
  rw [Nat.mul_assoc]
  refine (Kernel.word_mul_le _ _).trans_eq ?_
  simp

theorem productValues_ends {lhs rhs : List ℕ} (hs : Aligned lhs rhs s)
    (hlhs : a.size = elementCount lhs) (hrhs : b.size = elementCount rhs) :
    Ends KernelError.Proper (fun _ => True) (productValues s a b) (Kernel.productValues s a b) := by
  have hroom : Outcome.FailsWith KernelError.Proper (s.counts.forM Kernel.needRoom) := by
    intro e he
    obtain ⟨count, -, hcount⟩ := Outcome.exists_of_forM_eq_error he
    exact (needRoom_ends count).fails e hcount
  refine (Ends.plain hroom fun _ _ => trivial).bind fun _ _ _ => ?_
  refine (broadcastValues_ends hs.left (hlhs.trans hs.leftCount.symm)).bind fun x _ hx => ?_
  refine (broadcastValues_ends hs.right (hrhs.trans hs.rightCount.symm)).bind fun y _ hy => ?_
  have hx : s.blocks * s.rows * s.inner ≤ x.size := hx ▸ blocks_mul_le s _ _
  have hy : s.blocks * s.inner * s.columns ≤ y.size := hy ▸ blocks_mul_le s _ _
  rw [Array.mapM_eq_mapM_toList, Array.toList_range, Nat.mul_assoc, Outcome.mapM_range_mul,
    map_eq_pure_bind, bind_assoc]
  refine (Ends.mapM fun number hnumber => ?_).bind fun blocks _ _ =>
    .pure trivial
  have hnumber := List.mem_range.mp hnumber
  obtain ⟨hfirst, hlast⟩ := block_le hnumber (m := s.rows) (n := s.columns)
  obtain ⟨hfirstLeft, hlastLeft⟩ := block_le hnumber (m := s.rows) (n := s.inner)
  obtain ⟨hfirstRight, hlastRight⟩ := block_le hnumber (m := s.inner) (n := s.columns)
  rw [← Nat.mul_assoc, span_of_le hfirst hlast, pure_bind, productBlock,
    block_of_le hfirstLeft (hlastLeft.trans hx), pure_bind,
    block_of_le hfirstRight (hlastRight.trans hy), pure_bind, Outcome.mapM_range_mul]
  refine (Ends.mapM fun row hrow => ?_).map fun rows _ => trivial
  refine (Ends.mapM fun column hcolumn => ?_).imp fun _ _ _ => trivial
  have hrow := List.mem_range.mp hrow
  have hcolumn := List.mem_range.mp hcolumn
  rw [within_of_lt (Kernel.mul_add_lt hrow hcolumn), pure_bind]
  exact productElement_ends hx hy hnumber hrow hcolumn

end

theorem matmul_ends {lhs rhs : Tensor} (hlhs : lhs.WellFormed) (hrhs : rhs.WellFormed) :
    Ends KernelError.Proper Tensor.WellFormed (matmul lhs rhs) (Kernel.matmul lhs rhs) := by
  refine (productShape_ends _ _).bind fun s _ hs => ?_
  refine (productValues_ends hs hlhs.size_doubles hrhs.size_doubles).bind fun out _ _ => ?_
  exact build_ends _ _ _

end Guarded

namespace Kernel

/-- The batched product of operands that have axes, where one array can hold both operands,
broadcast, and the result.  It is computed exactly if the inner extents agree and the batches
broadcast; its extents are those of the broadcast batch, the rows and the columns, without the axes
that vectors lack; and the element of a row and a column in the batch is the sum over the inner
axis, in increasing order from zero.  No index and no slice that is formed on the way is out of
range, zero extents included, and there is room for all numbers. -/
theorem matmul_batched {lhs rhs : Tensor} (hlhs : lhs.WellFormed) (hrhs : rhs.WellFormed)
    (hlrank : 1 ≤ lhs.rank) (hrrank : 1 ≤ rhs.rank)
    (hroom : ∀ s, productShape lhs.dims rhs.dims = .ok s → s.Fits) :
    ∃ bl m k br k' n, LeftMatrix lhs.dims bl m k ∧ RightMatrix rhs.dims br k' n ∧
      ((∃ y, matmul lhs rhs = .ok y) ↔ k = k' ∧ Compatible bl br) ∧
      (∀ y, matmul lhs rhs = .ok y → ∃ batch, IsBroadcast bl br batch ∧
        y.dtype = promote lhs.dtype rhs.dtype ∧
        y.dims = batch ++ matrixAxis lhs.dims m ++ matrixAxis rhs.dims n ∧
        ∀ b i j, Within b batch → i < m → j < n →
          (∀ t < k, Within (heldCoords bl b ++ matrixAxis lhs.dims i ++ [t]) lhs.dims ∧
            Within (heldCoords br b ++ [t] ++ matrixAxis rhs.dims j) rhs.dims) ∧
          y.element? (b ++ matrixAxis lhs.dims i ++ matrixAxis rhs.dims j) =
            some (y.dtype.element ((List.range k).foldl (fun sum t => sum +
              valueAt lhs.doubles lhs.dims (heldCoords bl b ++ matrixAxis lhs.dims i ++ [t]) *
              valueAt rhs.doubles rhs.dims (heldCoords br b ++ [t] ++ matrixAxis rhs.dims j))
                0))) ∧
      Guarded.matmul lhs rhs = Guarded.plain (matmul lhs rhs) ∧
      ∀ count, matmul lhs rhs ≠ .error (.noRoom count) := by
  have hlne : lhs.dims ≠ [] := List.ne_nil_of_length_pos hlrank
  have hrne : rhs.dims ≠ [] := List.ne_nil_of_length_pos hrrank
  obtain ⟨bl, m, k, hl⟩ := exists_leftMatrix hlne
  obtain ⟨br, k', n, hr⟩ := exists_rightMatrix hrne
  have hshape {y : Tensor} (hy : matmul lhs rhs = .ok y) :
      k = k' ∧ ∃ batch, broadcastShape bl br = .ok batch := by
    obtain ⟨s, hs, -⟩ := Outcome.bind_eq_ok.mp hy
    obtain ⟨hinner, batch, hbatch, -⟩ := (productShape_eq_ok hl hr).mp hs
    exact ⟨hinner, batch, hbatch⟩
  have hfits {batch : List ℕ} (hinner : k = k') (hbatch : broadcastShape bl br = .ok batch) :
      ProductShape.Fits ⟨bl ++ [m, k], br ++ [k', n], batch, m, k, n⟩ :=
    hroom _ ((productShape_eq_ok hl hr).mpr ⟨hinner, batch, hbatch, rfl⟩)
  refine ⟨bl, m, k, br, k', n, hl, hr, ⟨?_, ?_⟩, fun y hy => ?_,
    (Guarded.matmul_ends hlhs hrhs).run, fun count hcount => ?_⟩
  · rintro ⟨y, hy⟩
    obtain ⟨hinner, batch, hbatch⟩ := hshape hy
    exact ⟨hinner, (broadcastShape_eq_ok.mp hbatch).1⟩
  · rintro ⟨rfl, hcompatible⟩
    obtain ⟨batch, hbatch⟩ := exists_broadcastShape hcompatible
    obtain ⟨y, hy, -⟩ := exists_matmul hlhs hrhs hl hr hbatch (hfits rfl hbatch)
    exact ⟨y, hy⟩
  · obtain ⟨rfl, batch, hbatch⟩ := hshape hy
    obtain ⟨y', hy', hdtype, hdims, helements⟩ :=
      exists_matmul hlhs hrhs hl hr hbatch (hfits rfl hbatch)
    obtain rfl := Except.ok.inj (hy.symm.trans hy')
    obtain ⟨hleft, hright⟩ := broadcasts_of_broadcastShape hbatch
    refine ⟨batch, (broadcastShape_eq_ok.mp hbatch).2, hdtype, hdims, fun b i j hb hi hj =>
      ⟨fun t ht => ⟨?_, ?_⟩, helements b i j hb hi hj⟩⟩
    · exact hl.within (within_heldCoords hleft hb) hi ht
    · exact hr.within (within_heldCoords hright hb) ht hj
  -- shapes are refused for other reasons, and from a shape on there is a product
  · rcases Outcome.bind_eq_error.mp hcount with hshapes | ⟨s, hs, -⟩
    · exact failsWith_productShape _ hshapes count rfl
    · obtain ⟨rfl, batch, hbatch, -⟩ := (productShape_eq_ok hl hr).mp hs
      obtain ⟨y, hy, -⟩ := exists_matmul hlhs hrhs hl hr hbatch (hfits rfl hbatch)
      cases hy.symm.trans hcount

/-- A stack of two rows and a vector. -/
theorem matmul_batched_rows :
    (∀ s, productShape [2, 1, 2] [2] = .ok s → s.Fits) ∧ ∃ bl m k br k' n,
      LeftMatrix [2, 1, 2] bl m k ∧ RightMatrix [2] br k' n ∧
      ((∃ y, matmul ⟨.i32, [2, 1, 2], .i32 #[1, 2, 3, 4]⟩ ⟨.i32, [2], .i32 #[5, 6]⟩ = .ok y) ↔
        k = k' ∧ Compatible bl br) ∧
      Guarded.matmul ⟨.i32, [2, 1, 2], .i32 #[1, 2, 3, 4]⟩ ⟨.i32, [2], .i32 #[5, 6]⟩ =
        Guarded.plain (matmul ⟨.i32, [2, 1, 2], .i32 #[1, 2, 3, 4]⟩ ⟨.i32, [2], .i32 #[5, 6]⟩) := by
  have hroom : ∀ s, productShape [2, 1, 2] [2] = .ok s → s.Fits := by
    intro s hs
    obtain rfl : ⟨[2, 1, 2], [2, 1], [2], 1, 2, 1⟩ = s := Except.ok.inj hs
    exact ⟨by decide, by decide, by decide⟩
  obtain ⟨bl, m, k, br, k', n, hl, hr, hok, -, hguarded, -⟩ :=
    @matmul_batched ⟨.i32, [2, 1, 2], .i32 #[1, 2, 3, 4]⟩ ⟨.i32, [2], .i32 #[5, 6]⟩
      ⟨rfl, rfl, nofun⟩ ⟨rfl, rfl, nofun⟩ (by decide) (by decide) hroom
  exact ⟨hroom, bl, m, k, br, k', n, hl, hr, hok, hguarded⟩

/-- Where there is no room for the result, there is no product.  A column and a row without elements
have a product of `2 ^ 66`, although they are well-formed, their inner extents agree and their
batches broadcast. -/
theorem not_matmul_batched_wide :
    let lhs : Tensor := ⟨.f32, [2 ^ 33, 0], .f32 #[]⟩
    let rhs : Tensor := ⟨.f32, [0, 2 ^ 33], .f32 #[]⟩
    lhs.WellFormed ∧ rhs.WellFormed ∧ 1 ≤ lhs.rank ∧ 1 ≤ rhs.rank ∧
      LeftMatrix lhs.dims [] (2 ^ 33) 0 ∧ RightMatrix rhs.dims [] 0 (2 ^ 33) ∧ Compatible [] [] ∧
      matmul lhs rhs = .error (.noRoom (2 ^ 66)) := by
  refine ⟨⟨rfl, rfl, trivial⟩, ⟨rfl, rfl, trivial⟩, by decide, by decide, .stack [] _ _,
    .stack [] _ _, ?_, by cbv⟩
  exact (broadcastShape_eq_ok.mp (rfl : broadcastShape [] [] = .ok [])).1

end Kernel

end HybridGraph
