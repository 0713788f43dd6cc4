import HybridGraph.Proofs.Kernel.Broadcasting
/-!
# Batched products

Operands of a product are stacks of matrices, or vectors, which count as one row on the left and as
one column on the right (`LeftMatrix`, `RightMatrix`).  The stacks broadcast: an operand is read at
the coordinates of the batch, those of axes that it lacks dropped and those of its unit axes zero.
With the flat indices of blocks, rows and columns taken apart, each element of a product that there
is room for (`ProductShape.Fits`) is the sum over the inner axis, from zero and in increasing order,
that its coordinates ask for:

    out[place (batch ++ [m, n]) (b ++ [i, j])]? =
      some ((range k).foldl (fun sum t => sum + lhs (b', i, t) * rhs (b'', t, j)) 0)
                                                                              (exists_productValues)
-/

namespace HybridGraph.Kernel

variable {α : Type} {lhs rhs dims coords : List ℕ}

/-! ## Room -/

/-- A number of elements that fits a word although the count of blocks in front of it is one. -/
theorem word_mul {n k : ℕ} (h : n * k < 2 ^ 64) : word n * k = n * k := by
  rcases Nat.eq_zero_or_pos k with rfl | hk
  · rfl
  · have hword : word n = n := Nat.mod_eq_of_lt (lt_of_le_of_lt (Nat.le_mul_of_pos_right n hk) h)
    rw [hword]

theorem word_mul_le (n k : ℕ) : word n * k ≤ n * k := Nat.mul_le_mul_right k (Nat.mod_le n _)

/-- One array can hold both operands of a product, broadcast, and its result. -/
structure ProductShape.Fits (s : ProductShape) : Prop where
  left : elementCount s.batch * s.rows * s.inner < capacity
  right : elementCount s.batch * s.inner * s.columns < capacity
  result : elementCount s.batch * s.rows * s.columns < capacity

namespace ProductShape

variable {s : ProductShape}

/-- The elements of the result are counted as they are. -/
theorem Fits.blocks_mul (h : s.Fits) :
    s.blocks * s.rows * s.columns = elementCount s.batch * s.rows * s.columns := by
  have hroom := Nat.lt_trans h.result (by decide : capacity < 2 ^ 64)
  rw [Nat.mul_assoc] at hroom
  rw [blocks, Nat.mul_assoc, word_mul hroom, Nat.mul_assoc]

theorem Fits.room (h : s.Fits) : s.counts.forM needRoom = .ok () := by
  have hless (rows columns : ℕ) :
      s.blocks * rows * columns ≤ elementCount s.batch * rows * columns := by
    rw [Nat.mul_assoc, Nat.mul_assoc]
    exact word_mul_le _ _
  refine Outcome.forM_eq_ok.mpr fun count hcount => if_pos ?_
  simp only [counts, List.mem_cons, List.not_mem_nil, or_false] at hcount
  rcases hcount with rfl | rfl | rfl
  · exact (hless _ _).trans_lt h.left
  · exact (hless _ _).trans_lt h.right
  · exact (hless _ _).trans_lt h.result

end ProductShape

/-! ## Elements of products -/

/-- The place of an entry of a matrix in a stack. -/
theorem place_matrix {batch c : List ℕ} (h : c.length = batch.length) (m n i j : ℕ) :
    place (batch ++ [m, n]) (c ++ [i, j]) = place batch c * (m * n) + (i * n + j) := by
  have hlast : [i, j].length = [m, n].length := rfl
  rw [place_append h hlast]
  simp [place]

theorem exists_matrix_entry {batch : List ℕ} {m n : ℕ} (h : Within coords (batch ++ [m, n])) :
    ∃ c i j, coords = c ++ [i, j] ∧ Within c batch ∧ i < m ∧ j < n := by
  obtain ⟨c, last, rfl, hc, hlast⟩ := exists_of_forall₂_append h.flip
  obtain _ | ⟨hi, _ | ⟨hj, _ | _⟩⟩ := hlast
  exact ⟨c, _, _, rfl, hc.flip, hi, hj⟩

section

variable [OfNat α 0] {bl br batch : List ℕ} {m k n : ℕ} {a b : Array α}

/-- An entry of a broadcast stack is that of the matrix at the coordinates held. -/
theorem exists_broadcastMatrix (h : Broadcasts bl batch)
    (hsize : a.size = elementCount (bl ++ [m, k])) :
    ∃ out, broadcastValues a (bl ++ [m, k]) (batch ++ [m, k]) = .ok out ∧
      ∀ c i t, Within c batch → i < m → t < k →
        fetch out (place batch c * (m * k) + (i * k + t)) =
          .ok (valueAt a (bl ++ [m, k]) (heldCoords bl c ++ [i, t])) := by
  obtain ⟨out, hout, -, hread⟩ := exists_broadcastValues (h.append [m, k]) hsize
  refine ⟨out, hout, fun c i t hc hi ht => fetch_eq_ok.mpr ?_⟩
  have hlast : Within [i, t] [m, k] := .cons hi (.cons ht .nil)
  have hcoords : Within (c ++ [i, t]) (batch ++ [m, k]) := List.rel_append hc hlast
  have hheld : heldCoords (bl ++ [m, k]) (c ++ [i, t]) = heldCoords bl c ++ [i, t] := by
    rw [heldCoords_append (hc.length_eq ▸ h.1) hlast.length_eq, heldCoords_of_within hlast]
  have hwithin := within_heldCoords (h.append [m, k]) hcoords
  rw [← place_matrix hc.length_eq, hread _ hcoords, getElem?_place hsize hwithin, hheld]

variable [Add α] [Mul α]

/-- The flat index of an element is taken apart into the block, the row and the column that it was
made of. -/
theorem productElement_at {s : ProductShape} {number row column : ℕ}
    (hrow : row < s.rows) (hcolumn : column < s.columns) :
    productElement s a b (number * (s.rows * s.columns) + (row * s.columns + column)) =
      (List.range s.inner).foldlM (fun sum k =>
        return sum + (← fetch a (number * (s.rows * s.inner) + (row * s.inner + k))) *
          (← fetch b (number * (s.inner * s.columns) + (k * s.columns + column)))) 0 := by
  have hplace : row * s.columns + column < s.rows * s.columns := mul_add_lt hrow hcolumn
  have hcolumns : 0 < s.columns := Nat.zero_lt_of_lt hcolumn
  have hline : number * (s.rows * s.columns) + (row * s.columns + column) =
      s.columns * (s.rows * number + row) + column := by ring
  have hblock : (number * (s.rows * s.columns) + (row * s.columns + column)) /
      (s.rows * s.columns) = number := by
    rw [Nat.mul_comm number, Nat.mul_add_div (Nat.zero_lt_of_lt hplace), Nat.div_eq_of_lt hplace,
      Nat.add_zero]
  have hrow' : (number * (s.rows * s.columns) + (row * s.columns + column)) / s.columns % s.rows =
      row := by
    rw [hline, Nat.mul_add_div hcolumns, Nat.div_eq_of_lt hcolumn, Nat.add_zero, Nat.mul_add_mod,
      Nat.mod_eq_of_lt hrow]
  have hcolumn' : (number * (s.rows * s.columns) + (row * s.columns + column)) % s.columns =
      column := by
    rw [hline, Nat.mul_add_mod, Nat.mod_eq_of_lt hcolumn]
  unfold productElement
  dsimp only
  rw [hblock, hrow', hcolumn']

theorem exists_productValues
    (hroom : ProductShape.Fits ⟨bl ++ [m, k], br ++ [k, n], batch, m, k, n⟩)
    (hl : Broadcasts bl batch) (hr : Broadcasts br batch)
    (ha : a.size = elementCount (bl ++ [m, k])) (hb : b.size = elementCount (br ++ [k, n])) :
    ∃ out, productValues ⟨bl ++ [m, k], br ++ [k, n], batch, m, k, n⟩ a b = .ok out ∧
      out.size = elementCount (batch ++ [m, n]) ∧
        ∀ c i j, Within c batch → i < m → j < n →
          out[place (batch ++ [m, n]) (c ++ [i, j])]? = some ((List.range k).foldl
            (fun sum t => sum + valueAt a (bl ++ [m, k]) (heldCoords bl c ++ [i, t]) *
              valueAt b (br ++ [k, n]) (heldCoords br c ++ [t, j])) 0) := by
  obtain ⟨x, hx, hxread⟩ := exists_broadcastMatrix hl ha
  obtain ⟨y, hy, hyread⟩ := exists_broadcastMatrix hr hb
  have helement (c : List ℕ) (i j : ℕ) (hc : Within c batch) (hi : i < m) (hj : j < n) :
      productElement ⟨bl ++ [m, k], br ++ [k, n], batch, m, k, n⟩ x y
        (place (batch ++ [m, n]) (c ++ [i, j])) = .ok ((List.range k).foldl
          (fun sum t => sum + valueAt a (bl ++ [m, k]) (heldCoords bl c ++ [i, t]) *
            valueAt b (br ++ [k, n]) (heldCoords br c ++ [t, j])) 0) := by
    rw [place_matrix hc.length_eq]
    refine (productElement_at hi hj).trans (Outcome.foldlM_of_eq_ok (fun sum t ht => ?_) 0)
    have ht := List.mem_range.mp ht
    show (fetch x _ >>= fun _ => fetch y _ >>= fun _ => _) = _
    rw [hxread c i t hc hi ht, hyread c t j hc ht hj]
    rfl
  have hcount : elementCount batch * m * n = elementCount (batch ++ [m, n]) := by
    simp [Nat.mul_assoc]
  have helements : ∀ index < elementCount batch * m * n, ∃ value,
      productElement ⟨bl ++ [m, k], br ++ [k, n], batch, m, k, n⟩ x y index = .ok value := by
    intro index hindex
    obtain ⟨coords, hcoords, rfl⟩ := exists_place_eq (hcount ▸ hindex)
    obtain ⟨c, i, j, rfl, hc, hi, hj⟩ := exists_matrix_entry hcoords
    exact ⟨_, helement c i j hc hi hj⟩
  obtain ⟨out, hout⟩ := exists_mapM_range helements
  obtain ⟨hsize, hread⟩ := mapM_range_eq_ok.mp hout
  refine ⟨out, ?_, hsize.trans hcount, fun c i j hc hi hj => ?_⟩
  · unfold productValues
    rw [Outcome.bind_of_eq_ok hroom.room, Outcome.bind_of_eq_ok hx, Outcome.bind_of_eq_ok hy,
      hroom.blocks_mul]
    exact hout
  · have hcoords : Within (c ++ [i, j]) (batch ++ [m, n]) :=
      List.rel_append hc (.cons hi (.cons hj .nil))
    obtain ⟨value, hvalue, helem⟩ := hread _ (hcount ▸ place_lt hcoords)
    rw [helem, Except.ok.inj (hvalue.symm.trans (helement c i j hc hi hj))]

end

/-! ## Matrices and vectors -/

/-- How the extents of a left operand are read: a batch, rows and inner extent, or a single row. -/
inductive LeftMatrix : List ℕ → List ℕ → ℕ → ℕ → Prop where
  | stack (batch : List ℕ) (m k : ℕ) : LeftMatrix (batch ++ [m, k]) batch m k
  | row (k : ℕ) : LeftMatrix [k] [] 1 k

/-- How the extents of a right operand are read: a batch, inner extent and columns, or a single
column. -/
inductive RightMatrix : List ℕ → List ℕ → ℕ → ℕ → Prop where
  | stack (batch : List ℕ) (k n : ℕ) : RightMatrix (batch ++ [k, n]) batch k n
  | column (k : ℕ) : RightMatrix [k] [] k 1

/-- The axis that matrices have and a vector lacks. -/
def matrixAxis (dims : List ℕ) (entry : ℕ) : List ℕ := if dims.length = 1 then [] else [entry]

theorem length_matrixAxis (dims : List ℕ) (i m : ℕ) :
    (matrixAxis dims i).length = (matrixAxis dims m).length := by
  unfold matrixAxis
  split <;> rfl

theorem matrixAxis_stack (batch : List ℕ) (m k i : ℕ) : matrixAxis (batch ++ [m, k]) i = [i] :=
  if_neg (by simp)

theorem elementCount_matrixAxis {m : ℕ} (h : dims.length = 1 → m = 1) :
    elementCount (matrixAxis dims m) = m := by
  unfold matrixAxis
  split
  · next hvector => exact (h hvector).symm
  · rw [elementCount_cons, elementCount_nil, Nat.mul_one]

theorem place_matrixAxis {m i : ℕ} (h : dims.length = 1 → m = 1) (hi : i < m) :
    place (matrixAxis dims m) (matrixAxis dims i) = i := by
  unfold matrixAxis
  split
  · next hvector =>
    rw [h hvector] at hi
    exact (Nat.lt_one_iff.mp hi).symm
  · simp [place]

theorem exists_leftMatrix (h : dims ≠ []) : ∃ batch m k, LeftMatrix dims batch m k := by
  obtain ⟨front, k, rfl⟩ := (List.eq_nil_or_concat dims).resolve_left h
  rcases List.eq_nil_or_concat front with rfl | ⟨batch, m, rfl⟩
  · exact ⟨_, _, _, .row k⟩
  · exact ⟨batch, m, k, by simpa using .stack batch m k⟩

theorem exists_rightMatrix (h : dims ≠ []) : ∃ batch k n, RightMatrix dims batch k n := by
  obtain ⟨front, n, rfl⟩ := (List.eq_nil_or_concat dims).resolve_left h
  rcases List.eq_nil_or_concat front with rfl | ⟨batch, k, rfl⟩
  · exact ⟨_, _, _, .column n⟩
  · exact ⟨batch, k, n, by simpa using .stack batch k n⟩

theorem extentFromEnd_stack (batch : List ℕ) (m k : ℕ) :
    extentFromEnd (batch ++ [m, k]) 1 = m ∧ extentFromEnd (batch ++ [m, k]) 0 = k := by
  constructor <;> simp [extentFromEnd]

theorem batchExtents_stack (batch : List ℕ) (m k : ℕ) : batchExtents (batch ++ [m, k]) = batch := by
  simp [batchExtents]

namespace LeftMatrix

variable {bl : List ℕ} {m k : ℕ}

/-- The matrices as which the operand is read. -/
theorem lifted (h : LeftMatrix dims bl m k) :
    (if dims.length = 1 then 1 :: dims else dims) = bl ++ [m, k] := by
  cases h with
  | stack => exact if_neg (by simp)
  | row => rfl

theorem elementCount_eq (h : LeftMatrix dims bl m k) :
    elementCount dims = elementCount (bl ++ [m, k]) := by
  cases h with
  | stack => rfl
  | row => simp

/-- A vector has one row. -/
theorem eq_one (h : LeftMatrix dims bl m k) (hlength : dims.length = 1) : m = 1 := by
  cases h with
  | stack => simp at hlength
  | row => rfl

theorem within {c : List ℕ} {i t : ℕ} (h : LeftMatrix dims bl m k) (hc : Within c bl) (hi : i < m)
    (ht : t < k) : Within (c ++ matrixAxis dims i ++ [t]) dims := by
  cases h with
  | stack =>
    rw [matrixAxis_stack, List.append_assoc]
    exact List.rel_append hc (.cons hi (.cons ht .nil))
  | row =>
    cases hc
    exact .cons ht .nil

theorem place_eq {c : List ℕ} {i : ℕ} (h : LeftMatrix dims bl m k) (hc : c.length = bl.length)
    (hi : i < m) (t : ℕ) :
    place dims (c ++ matrixAxis dims i ++ [t]) = place (bl ++ [m, k]) (c ++ [i, t]) := by
  cases h with
  | stack => rw [matrixAxis_stack, List.append_assoc]; rfl
  | row =>
    obtain rfl := List.length_eq_zero_iff.mp hc
    obtain rfl := Nat.lt_one_iff.mp hi
    simp [matrixAxis, place]

end LeftMatrix

namespace RightMatrix

variable {br : List ℕ} {k n : ℕ}

/-- The matrices as which the operand is read. -/
theorem lifted (h : RightMatrix dims br k n) :
    (if dims.length = 1 then dims ++ [1] else dims) = br ++ [k, n] := by
  cases h with
  | stack => exact if_neg (by simp)
  | column => rfl

theorem elementCount_eq (h : RightMatrix dims br k n) :
    elementCount dims = elementCount (br ++ [k, n]) := by
  cases h with
  | stack => rfl
  | column => simp

/-- A vector has one column. -/
theorem eq_one (h : RightMatrix dims br k n) (hlength : dims.length = 1) : n = 1 := by
  cases h with
  | stack => simp at hlength
  | column => rfl

theorem within {c : List ℕ} {t j : ℕ} (h : RightMatrix dims br k n) (hc : Within c br) (ht : t < k)
    (hj : j < n) : Within (c ++ [t] ++ matrixAxis dims j) dims := by
  cases h with
  | stack =>
    rw [matrixAxis_stack, List.append_assoc]
    exact List.rel_append hc (.cons ht (.cons hj .nil))
  | column =>
    cases hc
    exact .cons ht .nil

theorem place_eq {c : List ℕ} {j : ℕ} (h : RightMatrix dims br k n) (hc : c.length = br.length)
    (t : ℕ) (hj : j < n) :
    place dims (c ++ [t] ++ matrixAxis dims j) = place (br ++ [k, n]) (c ++ [t, j]) := by
  cases h with
  | stack => rw [matrixAxis_stack, List.append_assoc]; rfl
  | column =>
    obtain rfl := List.length_eq_zero_iff.mp hc
    obtain rfl := Nat.lt_one_iff.mp hj
    simp [matrixAxis, place]

end RightMatrix

section

variable {bl br batch : List ℕ} {m k k' n : ℕ}

theorem productShape_eq_ok (hl : LeftMatrix lhs bl m k) (hr : RightMatrix rhs br k' n)
    {s : ProductShape} : productShape lhs rhs = .ok s ↔ k = k' ∧ ∃ batch,
      broadcastShape bl br = .ok batch ∧ s = ⟨bl ++ [m, k], br ++ [k', n], batch, m, k, n⟩ := by
  have hlhs : lhs.isEmpty = false := by cases hl <;> simp
  have hrhs : rhs.isEmpty = false := by cases hr <;> simp
  unfold productShape
  simp only [hlhs, hrhs, hl.lifted, hr.lifted, Bool.false_eq_true, or_self, if_false,
    (extentFromEnd_stack _ _ _).1, (extentFromEnd_stack _ _ _).2, batchExtents_stack]
  refine Outcome.guard_eq_ok.trans (and_congr not_not (Outcome.bind_eq_ok.trans ?_))
  refine exists_congr fun batch => and_congr_right fun _ => ?_
  rw [Outcome.pure_eq_ok, eq_comm]

/-- Shapes are not refused for want of room. -/
theorem failsWith_productShape :
    Outcome.FailsWith (fun e => ∀ count, e ≠ .noRoom count) (productShape lhs rhs) := by
  have hbroadcast (a b : List ℕ) :
      Outcome.FailsWith (fun e => ∀ count, e ≠ .noRoom count) (broadcastShape a b) := by
    refine .mapM (fun axis => ?_) _
    dsimp only
    split_ifs
    all_goals first | exact .ok _ | exact .error nofun
  unfold productShape
  exact .guard nofun (.guard nofun (.bind (hbroadcast _ _) fun _ => .ok _))

/-- Without the axes that vectors lack an entry has the same place. -/
theorem place_product {c : List ℕ} {i j : ℕ} (hl : LeftMatrix lhs bl m k)
    (hr : RightMatrix rhs br k' n) (hc : c.length = batch.length) (hi : i < m) (hj : j < n) :
    place (batch ++ matrixAxis lhs m ++ matrixAxis rhs n)
        (c ++ matrixAxis lhs i ++ matrixAxis rhs j) = place (batch ++ [m, n]) (c ++ [i, j]) := by
  rw [place_append (by simp [hc, length_matrixAxis lhs i m]) (length_matrixAxis rhs j n),
    place_append hc (length_matrixAxis lhs i m), place_matrix hc,
    elementCount_matrixAxis hl.eq_one, elementCount_matrixAxis hr.eq_one,
    place_matrixAxis hl.eq_one hi, place_matrixAxis hr.eq_one hj]
  ring

/-- Where inner extents agree, batches broadcast and one array can hold the elements, a product is
computed, and each element is the sum that its coordinates ask for. -/
theorem exists_matmul {lhs rhs : Tensor} (hlhs : lhs.WellFormed) (hrhs : rhs.WellFormed)
    (hl : LeftMatrix lhs.dims bl m k) (hr : RightMatrix rhs.dims br k n)
    (hbatch : broadcastShape bl br = .ok batch)
    (hroom : ProductShape.Fits ⟨bl ++ [m, k], br ++ [k, n], batch, m, k, n⟩) :
    ∃ y, matmul lhs rhs = .ok y ∧ y.dtype = promote lhs.dtype rhs.dtype ∧
      y.dims = batch ++ matrixAxis lhs.dims m ++ matrixAxis rhs.dims n ∧
        ∀ c i j, Within c batch → i < m → j < n →
          y.element? (c ++ matrixAxis lhs.dims i ++ matrixAxis rhs.dims j) =
            some (y.dtype.element ((List.range k).foldl (fun sum t => sum +
              valueAt lhs.doubles lhs.dims (heldCoords bl c ++ matrixAxis lhs.dims i ++ [t]) *
              valueAt rhs.doubles rhs.dims (heldCoords br c ++ [t] ++ matrixAxis rhs.dims j))
                0)) := by
  obtain ⟨hleft, hright⟩ := broadcasts_of_broadcastShape hbatch
  have hshape := (productShape_eq_ok hl hr).mpr ⟨rfl, batch, hbatch, rfl⟩
  obtain ⟨out, hout, hsize, hread⟩ := exists_productValues hroom hleft hright
    (hlhs.size_doubles.trans hl.elementCount_eq) (hrhs.size_doubles.trans hr.elementCount_eq)
  have hcount : out.size =
      elementCount (batch ++ matrixAxis lhs.dims m ++ matrixAxis rhs.dims n) := by
    rw [hsize]
    simp [elementCount_matrixAxis hl.eq_one, elementCount_matrixAxis hr.eq_one]
  refine ⟨⟨promote lhs.dtype rhs.dtype, batch ++ matrixAxis lhs.dims m ++ matrixAxis rhs.dims n,
    Tensor.store out (promote lhs.dtype rhs.dtype)⟩, ?_, rfl, rfl, fun c i j hc hi hj => ?_⟩
  · unfold matmul
    rw [hshape]
    show (productValues _ _ _ >>= _) = _
    rw [hout]
    exact build_eq_ok.mpr ⟨hcount, rfl⟩
  · have hlength := hc.length_eq
    show (Tensor.store out _).get? _ = _
    rw [Elements.get?_store, place_product hl hr hlength hi hj, hread c i j hc hi hj,
      Option.map_some]
    have hleftLength : (heldCoords bl c).length = bl.length :=
      length_heldCoords (hlength ▸ hleft.1)
    have hrightLength : (heldCoords br c).length = br.length :=
      length_heldCoords (hlength ▸ hright.1)
    simp only [valueAt, hl.place_eq hleftLength hi, hr.place_eq hrightLength _ hj]

end

end HybridGraph.Kernel
