import HybridGraph.Proofs.Kernel.Pointwise
/-!
# Coordinates and flat indices

Where an element exists no extent is zero, so a flat index has coordinates inside the extents, and
coordinates inside the extents have a flat index below the number of elements:

    index < elementCount dims → Within (unravel dims index) dims            (within_unravel)
    Within coords dims → dot coords (strides dims) < elementCount dims      (dot_strides_lt)

The kernels never go through all axes in this plain way.  They hold some of them still, permute them
or shift them, and for each of these ways it is said which coordinates of the operand are read, and
that these lie inside it: for broadcast operands (`dot_broadcastStrides`), permuted ones
(`dot_permuted`), reduced ones (`dot_keptSteps`), padded ones (`paddedSource?_eq_some`).

Coordinates have a place in the element sequence: the last axis runs fastest.  `strides`, `unravel`
and `dot` compute with these places, so inside the extents coordinates and flat indices are the same
thing, and going through the flat indices in order is going through all coordinates in order:

    Within coords dims → unravel dims (place dims coords) = coords                  (unravel_place)
    index < elementCount dims → place dims (unravel dims index) = index             (place_unravel)
    coordinates dims = (range (elementCount dims)).map (unravel dims)              (coordinates_eq)

A kernel that computes an element for each flat index therefore computes one for each coordinates,
and arrays that agree on all coordinates are the same (`ext_place`).
-/

namespace HybridGraph.Kernel

/-- Coordinates that lie inside extents. -/
def Within (coords dims : List ℕ) : Prop := List.Forall₂ (· < ·) coords dims

variable {coords dims target : List ℕ} {index : ℕ}

/-! ## Element counts -/

@[simp] theorem elementCount_nil : elementCount [] = 1 := rfl

@[simp] theorem elementCount_cons (extent : ℕ) (dims : List ℕ) :
    elementCount (extent :: dims) = extent * elementCount dims := by
  rw [Inference.elementCount_eq_prod, Inference.elementCount_eq_prod, List.prod_cons]

@[simp] theorem elementCount_append (front back : List ℕ) :
    elementCount (front ++ back) = elementCount front * elementCount back := by
  rw [Inference.elementCount_eq_prod, Inference.elementCount_eq_prod,
    Inference.elementCount_eq_prod, List.prod_append]

/-- Where there are elements, no extent is zero. -/
theorem ne_zero_of_mem (h : index < elementCount dims) : ∀ extent ∈ dims, extent ≠ 0 := by
  rintro _ hmem rfl
  rw [Inference.elementCount_eq_prod, List.prod_eq_zero hmem] at h
  exact Nat.not_lt_zero index h

/-! ## Coordinates -/

theorem unravel_cons (extent : ℕ) (dims : List ℕ) (index : ℕ) :
    unravel (extent :: dims) index =
      index / elementCount dims % extent :: unravel dims index := rfl

theorem within_unravel (h : index < elementCount dims) : Within (unravel dims index) dims := by
  have hpos := ne_zero_of_mem h
  clear h
  induction dims with
  | nil => exact .nil
  | cons extent dims ih =>
    rw [List.forall_mem_cons] at hpos
    rw [unravel_cons]
    exact .cons (Nat.mod_lt _ (Nat.pos_of_ne_zero hpos.1)) (ih hpos.2)

/-- A coordinate inside its extent and a rest below the step of its axis. -/
theorem mul_add_lt {coord extent step rest : ℕ} (hcoord : coord < extent) (hrest : rest < step) :
    coord * step + rest < extent * step :=
  calc
    coord * step + rest < coord * step + step := Nat.add_lt_add_left hrest _
    _ = (coord + 1) * step := (Nat.succ_mul coord step).symm
    _ ≤ extent * step := Nat.mul_le_mul_right step hcoord

theorem dot_strides_lt (h : Within coords dims) :
    dot coords (strides dims) < elementCount dims := by
  induction h with
  | nil => exact Nat.zero_lt_one
  | cons hcoord _ ih =>
    rw [strides, dot_cons, elementCount_cons]
    exact mul_add_lt hcoord ih

theorem length_strides (dims : List ℕ) : (strides dims).length = dims.length := by
  induction dims with
  | nil => rfl
  | cons extent dims ih => exact congrArg Nat.succ ih

theorem length_unravel (dims : List ℕ) (index : ℕ) : (unravel dims index).length = dims.length := by
  rw [unravel, List.length_zipWith, length_strides, Nat.min_self]

theorem dot_eq_sum (coords steps : List ℕ) :
    dot coords steps = (List.zipWith (· * ·) coords steps).sum := List.sum_eq_foldl.symm

/-! ## Broadcast operands -/

/-- An operand whose extents, counted from the last one, are those of the result or one. -/
def Broadcasts (dims target : List ℕ) : Prop :=
  dims.length ≤ target.length ∧
    ∀ k, extentFromEnd dims k = 1 ∨ extentFromEnd dims k = extentFromEnd target k

theorem eq_of_broadcastExtent {a b wide : ℕ}
    (h : Inference.broadcastExtent (.fixed a) (.fixed b) = .ok (.fixed wide)) :
    (a = 1 ∨ a = wide) ∧ (b = 1 ∨ b = wide) := by
  unfold Inference.broadcastExtent at h
  simp only [Dimension.fixed.injEq] at h
  split_ifs at h <;> cases h <;> simp_all

/-- Both operands broadcast to their common shape. -/
theorem broadcasts_of_broadcastShape {lhs rhs : List ℕ} (h : broadcastShape lhs rhs = .ok target) :
    Broadcasts lhs target ∧ Broadcasts rhs target := by
  obtain ⟨hlength, hextents⟩ :=
    Inference.broadcast_eq_ok.mp (Inference.broadcast_of_broadcastShape h)
  simp only [List.length_map, Inference.fromEnd_map_fixed] at hlength hextents
  exact ⟨⟨by omega, fun k => (eq_of_broadcastExtent (hextents k)).1⟩,
    ⟨by omega, fun k => (eq_of_broadcastExtent (hextents k)).2⟩⟩

theorem extentFromEnd_append (front back : List ℕ) (k : ℕ) :
    extentFromEnd (front ++ back) (back.length + k) = extentFromEnd front k := by
  unfold extentFromEnd
  rw [List.length_append]
  by_cases hk : k < front.length
  · rw [if_pos (by omega), if_pos hk, List.getD_append _ _ _ _ (by omega)]
    congr 1
    omega
  · rw [if_neg (by omega), if_neg hk]

theorem getElem_eq_extentFromEnd {i : ℕ} (hi : i < dims.length) :
    dims[i] = extentFromEnd dims (dims.length - 1 - i) := by
  unfold extentFromEnd
  have hback : dims.length - 1 - (dims.length - 1 - i) = i := by omega
  rw [if_pos (by omega), hback, List.getD_eq_getElem _ _ hi]

/-- The axes of an operand face the last ones of the result. -/
theorem Broadcasts.forall₂ (h : Broadcasts dims target) :
    List.Forall₂ (fun extent wide => extent = 1 ∨ extent = wide) dims
      (target.drop (target.length - dims.length)) := by
  obtain ⟨hlength, hextents⟩ := h
  refine List.forall₂_iff_get.mpr ⟨by simp; omega, fun i hi hi' => ?_⟩
  have hplace : target.length - dims.length + i < target.length := by omega
  have hextent := hextents (dims.length - 1 - i)
  rw [← getElem_eq_extentFromEnd hi] at hextent
  have hwide := getElem_eq_extentFromEnd hplace
  have hfromEnd : target.length - 1 - (target.length - dims.length + i) =
      dims.length - 1 - i := by omega
  rw [hfromEnd] at hwide
  simpa [hwide] using hextent

theorem dot_replicate_append (n : ℕ) (coords steps : List ℕ) :
    dot coords (List.replicate n 0 ++ steps) = dot (coords.drop n) steps := by
  induction n generalizing coords with
  | zero => rfl
  | succ n ih =>
    cases coords with
    | nil => simp [dot]
    | cons coord coords =>
      rw [List.replicate_succ, List.cons_append, dot_cons, ih, Nat.mul_zero, Nat.zero_add]
      rfl

/-- Coordinates in an operand: those of missing axes are dropped, those of unit axes are zero. -/
def heldCoords (dims coords : List ℕ) : List ℕ :=
  List.zipWith (fun extent coord => if extent = 1 then 0 else coord) dims
    (coords.drop (coords.length - dims.length))

theorem within_heldCoords (h : Broadcasts dims target) (hcoords : Within coords target) :
    Within (heldCoords dims coords) dims := by
  have hlast : List.Forall₂ (fun extent coord => extent = 1 ∨ coord < extent) dims
      (coords.drop (coords.length - dims.length)) := by
    rw [hcoords.length_eq]
    refine Outcome.forall₂_of_forall₂ h.forall₂.flip (List.Forall₂.flip
      (List.forall₂_drop _ hcoords)) fun wide _ extent coord hextent hcoord => ?_
    rcases hextent with hone | heq
    · exact .inl hone
    · exact .inr (heq ▸ hcoord)
  unfold heldCoords
  generalize coords.drop (coords.length - dims.length) = last at hlast
  clear h
  induction hlast with
  | nil => exact .nil
  | cons hcoord _ ih =>
    refine .cons ?_ ih
    dsimp only
    split
    · next hone => exact hone ▸ Nat.zero_lt_one
    · next hone => exact hcoord.resolve_left hone

/-- Coordinates of unit axes do not count. -/
theorem dot_broadcastStrides (dims : List ℕ) (hlength : coords.length = target.length) :
    dot coords (broadcastStrides dims target.length) =
      dot (heldCoords dims coords) (strides dims) := by
  rw [broadcastStrides, dot_replicate_append, heldCoords, hlength, dot_eq_sum, dot_eq_sum]
  congr 1
  refine List.ext_getElem (by simp; omega) fun i hi hi' => ?_
  simp only [List.getElem_zipWith]
  split <;> simp

theorem dot_broadcastStrides_lt (h : Broadcasts dims target) (hcoords : Within coords target) :
    dot coords (broadcastStrides dims target.length) < elementCount dims := by
  rw [dot_broadcastStrides dims hcoords.length_eq]
  exact dot_strides_lt (within_heldCoords h hcoords)

/-! ## Permuted operands -/

theorem mem_of_isPermutation {perm : List ℕ} (h : isPermutation perm = true) {axis : ℕ} :
    axis ∈ perm ↔ axis < perm.length :=
  (perm_range_of_isPermutation h).mem_iff.trans List.mem_range

/-- Entries in the order in which a list names their axes. -/
def reorder (perm entries : List ℕ) : List ℕ := perm.map fun axis => entries.getD axis 0

/-- The permutation that undoes another. -/
def inverse (perm : List ℕ) : List ℕ := (List.range perm.length).map perm.idxOf

example : inverse [2, 0, 1] = [1, 2, 0] ∧ reorder [2, 0, 1] [5, 6, 7] = [7, 5, 6] := by decide

theorem length_reorder (perm entries : List ℕ) : (reorder perm entries).length = perm.length :=
  List.length_map _

theorem length_inverse (perm : List ℕ) : (inverse perm).length = perm.length := by simp [inverse]

section

variable {perm : List ℕ} (h : isPermutation perm = true)

include h

theorem isPermutation_inverse : isPermutation (inverse perm) = true := by
  have hmem : ∀ axis ∈ List.range perm.length, axis ∈ perm := fun axis haxis =>
    (mem_of_isPermutation h).mpr (List.mem_range.mp haxis)
  unfold isPermutation
  rw [length_inverse]
  simp only [inverse, Bool.and_eq_true, List.all_map, List.all_eq_true]
  refine ⟨fun axis haxis => by simpa using List.idxOf_lt_length_of_mem (hmem axis haxis), ?_⟩
  refine decide_eq_true (List.Nodup.map_on (fun a ha b _ hab => ?_) List.nodup_range)
  exact (List.idxOf_inj (hmem a ha)).mp hab

variable (hlength : dims.length = perm.length)

include hlength

theorem reorder_inverse_reorder : reorder (inverse perm) (reorder perm dims) = dims := by
  refine List.ext_getElem (by simp [length_reorder, length_inverse, hlength]) fun i hi hi' => ?_
  have hplace : perm.idxOf i < perm.length :=
    List.idxOf_lt_length_of_mem ((mem_of_isPermutation h).mpr (hlength ▸ hi'))
  simp [reorder, inverse, hplace, hi']

theorem reorder_reorder_inverse : reorder perm (reorder (inverse perm) dims) = dims := by
  have hnodup : perm.Nodup := (perm_range_of_isPermutation h).nodup_iff.mpr List.nodup_range
  refine List.ext_getElem (by simp [length_reorder, hlength]) fun i hi hi' => ?_
  have hperm : i < perm.length := hlength ▸ hi'
  have haxis : perm[i] < perm.length := (mem_of_isPermutation h).mp (List.getElem_mem hperm)
  simp [reorder, inverse, haxis, hnodup.idxOf_getElem, hi']

/-- The extents that a permutation gives. -/
theorem map_extentAt : perm.map (extentAt dims) = reorder perm dims := by
  refine List.map_congr_left fun axis haxis => ?_
  have hlt : axis < dims.length := hlength ▸ (mem_of_isPermutation h).mp haxis
  simp [extentAt, hlt]

theorem perm_reorder : (reorder perm dims).Perm dims := by
  have hperm := (perm_range_of_isPermutation h).map fun axis => dims.getD axis 0
  have hrange : (List.range perm.length).map (fun axis => dims.getD axis 0) = dims :=
    List.ext_getElem (by simp [hlength]) fun i hi hi' => by simp [hi']
  rwa [hrange] at hperm

/-- As many elements under permuted extents. -/
theorem elementCount_permuted : elementCount (perm.map (extentAt dims)) = elementCount dims := by
  rw [map_extentAt h hlength, Inference.elementCount_eq_prod, Inference.elementCount_eq_prod,
    (perm_reorder h hlength).prod_eq]

theorem within_reorder (hcoords : Within coords dims) :
    Within (reorder perm coords) (reorder perm dims) := by
  refine List.forall₂_map_left_iff.mpr (List.forall₂_map_right_iff.mpr
    (List.forall₂_same.mpr fun axis haxis => ?_))
  have hlt : axis < dims.length := hlength ▸ (mem_of_isPermutation h).mp haxis
  have hlt' : axis < coords.length := hcoords.length_eq ▸ hlt
  have hinside := (List.forall₂_iff_get.mp hcoords).2 axis hlt' hlt
  simpa [hlt, hlt'] using hinside

/-- Coordinates inside permuted extents are permuted coordinates. -/
theorem exists_reorder_eq (htarget : Within target (reorder perm dims)) :
    ∃ coords, Within coords dims ∧ reorder perm coords = target := by
  have hrank : (reorder perm dims).length = (inverse perm).length := by
    rw [length_reorder, length_inverse]
  have hcoords := within_reorder (isPermutation_inverse h) hrank htarget
  rw [reorder_inverse_reorder h hlength] at hcoords
  exact ⟨_, hcoords, reorder_reorder_inverse h (htarget.length_eq.trans (length_reorder _ _))⟩

/-- The terms may be added up in any order. -/
theorem dot_reorder (hcoords : coords.length = dims.length) :
    dot (reorder perm coords) (reorder perm dims) = dot coords dims := by
  have hterms : (List.zipWith (· * ·) coords dims).length = perm.length := by
    simp [hcoords, hlength]
  rw [dot_eq_sum, dot_eq_sum, ← (perm_reorder h hterms).sum_eq, reorder, reorder,
    List.zipWith_map, List.zipWith_self, reorder]
  congr 1
  refine List.map_congr_left fun axis haxis => ?_
  have hlt : axis < dims.length := hlength ▸ (mem_of_isPermutation h).mp haxis
  simp [hlt, hcoords]

/-- A permuted operand is read at the coordinates that are named. -/
theorem dot_permuted (hcoords : Within coords dims) :
    dot (reorder perm coords) (perm.map fun axis => (strides dims).getD axis 0) =
      dot coords (strides dims) :=
  dot_reorder h ((length_strides dims).trans hlength)
    (hcoords.length_eq.trans (length_strides dims).symm)

theorem dot_permuted_lt (htarget : Within target (perm.map (extentAt dims))) :
    dot target (perm.map fun axis => (strides dims).getD axis 0) < elementCount dims := by
  rw [map_extentAt h hlength] at htarget
  obtain ⟨coords, hcoords, rfl⟩ := exists_reorder_eq h hlength htarget
  rw [dot_permuted h hlength hcoords]
  exact dot_strides_lt hcoords

end

/-! ## Reduced operands -/

theorem length_keptExtents (dims axes : List ℕ) : (keptExtents dims axes).length = dims.length :=
  List.length_mapIdx

/-- Coordinates in the result: those of reduced axes are zero. -/
def keptCoords (axes coords : List ℕ) : List ℕ :=
  coords.mapIdx fun axis coord => if axes.contains axis then 0 else coord

theorem length_keptCoords (axes coords : List ℕ) :
    (keptCoords axes coords).length = coords.length := List.length_mapIdx

/-- An axis that does not move is one whose coordinate is zero. -/
theorem dot_keptSteps (dims axes coords : List ℕ) : dot coords (keptSteps dims axes) =
    dot (keptCoords axes coords) (strides (keptExtents dims axes)) := by
  rw [dot_eq_sum, dot_eq_sum]
  congr 1
  refine List.ext_getElem (by simp [keptSteps, keptCoords]) fun i hi hi' => ?_
  simp only [keptSteps, keptCoords, List.getElem_zipWith, List.getElem_mapIdx]
  split <;> simp

theorem within_keptCoords (axes : List ℕ) (hcoords : Within coords dims) :
    Within (keptCoords axes coords) (keptExtents dims axes) := by
  refine List.forall₂_iff_get.mpr ⟨?_, fun i hi hi' => ?_⟩
  · rw [length_keptCoords, length_keptExtents, hcoords.length_eq]
  · have hlt := (List.forall₂_iff_get.mp hcoords).2 i (by simpa [length_keptCoords] using hi) (by
      simpa [length_keptExtents] using hi')
    simp only [List.get_eq_getElem, keptExtents, keptCoords, List.getElem_mapIdx] at hlt ⊢
    split
    · exact Nat.zero_lt_one
    · exact hlt

theorem dot_keptSteps_lt (axes : List ℕ) (hcoords : Within coords dims) :
    dot coords (keptSteps dims axes) < elementCount (keptExtents dims axes) := by
  rw [dot_keptSteps]
  exact dot_strides_lt (within_keptCoords axes hcoords)

/-! ## Padded operands -/

/-- Coordinates that lie further by the given amounts. -/
def Shifts (pre : List ℤ) (coords target : List ℕ) : Prop :=
  target.map Nat.cast = List.zipWith (· + ·) (coords.map Nat.cast) pre

theorem shifts_cons {before : ℤ} {pre : List ℤ} {coord position : ℕ} :
    Shifts (before :: pre) (coord :: coords) (position :: target) ↔
      (position : ℤ) = coord + before ∧ Shifts pre coords target := List.cons_eq_cons

/-- Every other place of the result gets the filler. -/
theorem paddedSource?_eq_some {pre : List ℤ} {source : ℕ} (hpre : pre.length = dims.length)
    (htarget : target.length = dims.length) :
    paddedSource? target dims (strides dims) pre = some source ↔
      ∃ coords, Within coords dims ∧ Shifts pre coords target ∧
        dot coords (strides dims) = source := by
  induction dims generalizing target pre source with
  | nil =>
    obtain rfl := List.length_eq_zero_iff.mp hpre
    obtain rfl := List.length_eq_zero_iff.mp htarget
    constructor
    · rintro ⟨⟩
      exact ⟨[], .nil, rfl, rfl⟩
    · rintro ⟨_, ⟨⟩, -, rfl⟩
      rfl
  | cons extent dims ih =>
    obtain ⟨before, pre, rfl⟩ := List.exists_cons_of_length_eq_add_one hpre
    obtain ⟨position, target, rfl⟩ := List.exists_cons_of_length_eq_add_one htarget
    rw [strides, paddedSource?]
    constructor
    · intro h
      split at h
      · cases h
      next hinside =>
      obtain ⟨rest, hrest, rfl⟩ := Option.map_eq_some_iff.mp h
      obtain ⟨coords, hcoords, hshift, rfl⟩ :=
        (ih (Nat.succ.inj hpre) (Nat.succ.inj htarget)).mp hrest
      refine ⟨(position - before).toNat :: coords, .cons (by omega) hcoords, ?_, dot_cons ..⟩
      exact shifts_cons.mpr ⟨by omega, hshift⟩
    · rintro ⟨_, _ | ⟨hcoord, hcoords⟩, hshift, rfl⟩
      obtain ⟨hposition, hshift⟩ := shifts_cons.mp hshift
      rw [if_neg (by omega), hposition, Int.add_sub_cancel, Int.toNat_natCast, dot_cons,
        (ih (Nat.succ.inj hpre) (Nat.succ.inj htarget)).mpr ⟨_, hcoords, hshift, rfl⟩]
      rfl

theorem paddedSource?_lt {pre : List ℤ} {source : ℕ} (hpre : pre.length = dims.length)
    (htarget : target.length = dims.length)
    (h : paddedSource? target dims (strides dims) pre = some source) :
    source < elementCount dims := by
  obtain ⟨coords, hcoords, -, rfl⟩ := (paddedSource?_eq_some hpre htarget).mp h
  exact dot_strides_lt hcoords

/-- The sums of extents and the amounts on both sides. -/
def widened (dims : List ℕ) (pre post : List ℤ) : List ℤ :=
  List.zipWith (· + ·) (List.zipWith (· + ·) (dims.map Nat.cast) pre) post

/-- Extents that are wider by the given amounts on both sides, as machine integers. -/
def Pads (dims : List ℕ) (pre post : List ℤ) (target : List ℕ) : Prop :=
  target.map Nat.cast = (widened dims pre post).map signed

theorem pads_cons {before after : ℤ} {pre post : List ℤ} {extent wide : ℕ} :
    Pads (extent :: dims) (before :: pre) (after :: post) (wide :: target) ↔
      (wide : ℤ) = signed (extent + before + after) ∧ Pads dims pre post target :=
  List.cons_eq_cons

/-- The only fault is an extent below zero. -/
theorem paddedExtents_eq_ok {pre post : List ℤ} (hpre : pre.length = dims.length)
    (hpost : post.length = dims.length) (axis : ℕ) :
    paddedExtents axis dims pre post = .ok target ↔ Pads dims pre post target := by
  induction dims generalizing pre post target axis with
  | nil =>
    constructor
    · rintro ⟨⟩
      rfl
    · intro h
      rw [List.map_eq_nil_iff.mp h]
      rfl
  | cons extent dims ih =>
    obtain ⟨before, pre, rfl⟩ := List.exists_cons_of_length_eq_add_one hpre
    obtain ⟨after, post, rfl⟩ := List.exists_cons_of_length_eq_add_one hpost
    rw [paddedExtents]
    constructor
    · intro h
      split at h
      · cases h
      next hwide =>
      obtain ⟨rest, hrest, h⟩ := Outcome.bind_eq_ok.mp h
      obtain rfl := Except.ok.inj h
      exact pads_cons.mpr ⟨Int.toNat_of_nonneg (Int.not_lt.mp hwide),
        (ih (Nat.succ.inj hpre) (Nat.succ.inj hpost) _).mp hrest⟩
    · intro h
      cases target with
      | nil => cases h
      | cons wide target =>
        obtain ⟨hwide, hrest⟩ := pads_cons.mp h
        rw [← hwide, if_neg (by omega), (ih (Nat.succ.inj hpre) (Nat.succ.inj hpost) _).mpr hrest]
        rfl

end HybridGraph.Kernel

namespace HybridGraph

namespace Kernel

variable {α ε : Type} {dims coords : List ℕ} {index : ℕ}

/-! ## Places -/

/-- The place of coordinates in row-major order. -/
def place (dims coords : List ℕ) : ℕ :=
  (dims.zip coords).foldl (fun index entry => index * entry.1 + entry.2) 0

/-- The coordinates inside extents, the last axis running fastest. -/
def coordinates : List ℕ → List (List ℕ)
  | [] => [[]]
  | extent :: dims => (List.range extent).flatMap fun coord => (coordinates dims).map (coord :: ·)

example : coordinates [2, 3] = [[0, 0], [0, 1], [0, 2], [1, 0], [1, 1], [1, 2]] ∧
    (coordinates [2, 3]).map (place [2, 3]) = [0, 1, 2, 3, 4, 5] := by decide

theorem foldl_place (h : coords.length = dims.length) (start : ℕ) :
    (dims.zip coords).foldl (fun index entry => index * entry.1 + entry.2) start =
      start * elementCount dims + dot coords (strides dims) := by
  induction dims generalizing coords start with
  | nil =>
    obtain rfl := List.length_eq_zero_iff.mp h
    exact (Nat.mul_one start).symm
  | cons extent dims ih =>
    obtain ⟨coord, coords, rfl⟩ := List.exists_cons_of_length_eq_add_one h
    rw [List.zip_cons_cons, List.foldl_cons, ih (Nat.succ.inj h), strides, dot_cons,
      elementCount_cons]
    ring

theorem place_eq_dot (h : coords.length = dims.length) :
    place dims coords = dot coords (strides dims) := by
  rw [place, foldl_place h, Nat.zero_mul, Nat.zero_add]

theorem place_append {front back coords' : List ℕ} (h : coords.length = front.length)
    (h' : coords'.length = back.length) : place (front ++ back) (coords ++ coords') =
      place front coords * elementCount back + place back coords' := by
  rw [place, List.zip_append h.symm, List.foldl_append, foldl_place h', place_eq_dot h']
  rfl

theorem place_cons {extent coord : ℕ} (h : coords.length = dims.length) :
    place (extent :: dims) (coord :: coords) = coord * elementCount dims + place dims coords := by
  have hfront : [coord].length = [extent].length := rfl
  have hplace : place [extent] [coord] = coord := by simp [place]
  rw [← List.singleton_append, ← List.singleton_append (x := coord), place_append hfront h, hplace]

theorem place_lt (h : Within coords dims) : place dims coords < elementCount dims := by
  rw [place_eq_dot h.length_eq]
  exact dot_strides_lt h

/-! ## Coordinates and flat indices -/

theorem unravel_mul_add (dims : List ℕ) (block index : ℕ) :
    unravel dims (block * elementCount dims + index) = unravel dims index := by
  induction dims generalizing block with
  | nil => rfl
  | cons extent dims ih =>
    have hsplit : block * elementCount (extent :: dims) + index =
        block * extent * elementCount dims + index := by
      rw [elementCount_cons, Nat.mul_assoc]
    rw [unravel_cons, unravel_cons, hsplit, ih]
    congr 1
    rcases Nat.eq_zero_or_pos (elementCount dims) with hzero | hpos
    · rw [hzero, Nat.mul_zero, Nat.zero_add]
    · rw [Nat.mul_comm _ (elementCount dims), Nat.mul_add_div hpos, Nat.mul_comm block,
        Nat.mul_add_mod]

theorem unravel_place (h : Within coords dims) : unravel dims (place dims coords) = coords := by
  induction h with
  | nil => rfl
  | @cons coord extent coords dims hcoord hcoords ih =>
    have hlt := place_lt hcoords
    rw [place_cons hcoords.length_eq, unravel_cons, unravel_mul_add, ih, Nat.mul_comm coord,
      Nat.mul_add_div (Nat.zero_lt_of_lt hlt), Nat.div_eq_of_lt hlt, Nat.add_zero,
      Nat.mod_eq_of_lt hcoord]

theorem place_unravel_mod (dims : List ℕ) (index : ℕ) :
    place dims (unravel dims index) = index % elementCount dims := by
  induction dims with
  | nil => exact (Nat.mod_one index).symm
  | cons extent dims ih =>
    rw [unravel_cons, place_cons (length_unravel dims index), ih, elementCount_cons,
      Nat.mul_comm extent, Nat.mod_mul]
    ring

theorem place_unravel (h : index < elementCount dims) : place dims (unravel dims index) = index :=
  (place_unravel_mod dims index).trans (Nat.mod_eq_of_lt h)

theorem place_inj {coords' : List ℕ} (h : Within coords dims) (h' : Within coords' dims) :
    place dims coords = place dims coords' ↔ coords = coords' := by
  refine ⟨fun hplace => ?_, congrArg _⟩
  rw [← unravel_place h, hplace, unravel_place h']

/-- Every place below the number of elements is that of coordinates inside the extents. -/
theorem exists_place_eq (h : index < elementCount dims) :
    ∃ coords, Within coords dims ∧ place dims coords = index :=
  ⟨unravel dims index, within_unravel h, place_unravel h⟩

theorem mem_coordinates : coords ∈ coordinates dims ↔ Within coords dims := by
  induction dims generalizing coords with
  | nil => simp [coordinates, Within]
  | cons extent dims ih =>
    simp only [coordinates, List.mem_flatMap, List.mem_range, List.mem_map, ih]
    constructor
    · rintro ⟨coord, hcoord, coords, hcoords, rfl⟩
      exact .cons hcoord hcoords
    · rintro (_ | ⟨hcoord, hcoords⟩)
      exact ⟨_, hcoord, _, hcoords, rfl⟩

theorem map_place_coordinates (dims : List ℕ) :
    (coordinates dims).map (place dims) = List.range (elementCount dims) := by
  induction dims with
  | nil => rfl
  | cons extent dims ih =>
    have hrow (coord : ℕ) : ((coordinates dims).map (coord :: ·)).map (place (extent :: dims)) =
        (List.range (elementCount dims)).map (coord * elementCount dims + ·) := by
      rw [← ih, List.map_map, List.map_map]
      exact List.map_congr_left fun coords hcoords =>
        place_cons (mem_coordinates.mp hcoords).length_eq
    rw [coordinates, List.map_flatMap, List.flatMap_congr fun coord _ => hrow coord,
      elementCount_cons]
    clear hrow ih
    induction extent with
    | zero => simp
    | succ extent ih =>
      rw [List.range_succ, List.flatMap_append, ih, Nat.succ_mul, List.range_add]
      simp

theorem coordinates_eq (dims : List ℕ) :
    coordinates dims = (List.range (elementCount dims)).map (unravel dims) := by
  rw [← map_place_coordinates, List.map_map]
  conv_lhs => rw [← List.map_id (coordinates dims)]
  exact List.map_congr_left fun coords hcoords =>
    (unravel_place (mem_coordinates.mp hcoords)).symm

theorem nodup_coordinates (dims : List ℕ) : (coordinates dims).Nodup := by
  refine List.Nodup.of_map (place dims) ?_
  rw [map_place_coordinates]
  exact List.nodup_range

/-! ## Computed elements -/

/-- Elements that are computed one for each index. -/
theorem mapM_range_eq_ok {f : ℕ → Except ε α} {count : ℕ} {out : Array α} :
    (Array.range count).mapM f = .ok out ↔
      out.size = count ∧ ∀ i < count, ∃ x, f i = .ok x ∧ out[i]? = some x := by
  have hlist : ∀ r : Except ε (List α), List.toArray <$> r = .ok out ↔ r = .ok out.toList := by
    rintro (e | xs)
    · exact iff_of_false nofun nofun
    · show Except.ok xs.toArray = .ok out ↔ Except.ok xs = .ok out.toList
      rw [Except.ok.injEq, Except.ok.injEq, ← Array.toList_inj]
  rw [Array.mapM_eq_mapM_toList, Array.toList_range, hlist, Outcome.mapM_eq_ok,
    Outcome.forall₂_iff_getElem?]
  simp only [List.length_range, Array.length_toList, Array.getElem?_toList]
  refine and_congr_right fun _ => ⟨fun h i hi => ?_, fun h i x hx => ?_⟩
  · obtain ⟨x, hx, hf⟩ := h i i (by simp [hi])
    exact ⟨x, hf, hx⟩
  · obtain ⟨hi, rfl⟩ := List.getElem?_eq_some_iff.mp hx
    obtain ⟨x, hf, hx⟩ := h i (by simpa using hi)
    exact ⟨x, hx, by simpa using hf⟩

theorem exists_mapM_range {f : ℕ → Except ε α} {count : ℕ} (h : ∀ i < count, ∃ x, f i = .ok x) :
    ∃ out, (Array.range count).mapM f = .ok out := by
  cases hout : (Array.range count).mapM f with
  | ok out => exact ⟨out, rfl⟩
  | error e =>
    rw [Array.mapM_eq_mapM_toList, Array.toList_range] at hout
    cases hlist : (List.range count).mapM f with
    | ok xs => rw [hlist] at hout; cases hout
    | error e =>
      obtain ⟨i, hi, he⟩ := Outcome.exists_of_mapM_eq_error hlist
      obtain ⟨x, hx⟩ := h i (List.mem_range.mp hi)
      rw [hx] at he
      cases he

/-- Elements that are read at computed places: none lies outside, and each is where it should be. -/
theorem exists_gather {values : Array α} {count : ℕ} {source : ℕ → ℕ}
    (h : ∀ i < count, source i < values.size) : ∃ out, gather values count source = .ok out ∧
      out.size = count ∧ ∀ i < count, out[i]? = values[source i]? := by
  have hfetch : ∀ i < count, ∃ x, fetch values (source i) = .ok x := fun i hi =>
    ⟨_, fetch_eq_ok.mpr (Array.getElem?_eq_getElem (h i hi))⟩
  obtain ⟨out, hout⟩ := exists_mapM_range hfetch
  obtain ⟨hsize, hread⟩ := mapM_range_eq_ok.mp hout
  refine ⟨out, hout, hsize, fun i hi => ?_⟩
  obtain ⟨x, hx, hi⟩ := hread i hi
  rw [hi, fetch_eq_ok.mp hx]

/-- The element at coordinates; zero outside the extents. -/
def valueAt [OfNat α 0] (values : Array α) (dims coords : List ℕ) : α :=
  values.getD (place dims coords) 0

theorem getElem?_place [OfNat α 0] {values : Array α} (hsize : values.size = elementCount dims)
    (h : Within coords dims) : values[place dims coords]? = some (valueAt values dims coords) := by
  have hlt : place dims coords < values.size := hsize ▸ place_lt h
  simp [valueAt, Array.getD, hlt]

/-- Elements are known from their coordinates. -/
theorem ext_place {a b : Array α} (ha : a.size = elementCount dims)
    (hb : b.size = elementCount dims)
    (h : ∀ coords, Within coords dims → a[place dims coords]? = b[place dims coords]?) : a = b := by
  refine Array.ext_getElem? fun i => ?_
  by_cases hi : i < elementCount dims
  · obtain ⟨coords, hcoords, rfl⟩ := exists_place_eq hi
    exact h coords hcoords
  · rw [Array.getElem?_eq_none (by omega), Array.getElem?_eq_none (by omega)]

end Kernel

/-! ## Elements of tensors -/

/-- An element as it is stored. -/
inductive Element where
  | f32 (value : Float32)
  | f64 (value : Float)
  | i32 (value : Int32)
  | i64 (value : Int64)
  | bool (value : UInt8)

/-- The element at a place. -/
def Elements.get? : Elements → ℕ → Option Element
  | .f32 values, index => values[index]?.map .f32
  | .f64 values, index => values[index]?.map .f64
  | .i32 values, index => values[index]?.map .i32
  | .i64 values, index => values[index]?.map .i64
  | .bool values, index => values[index]?.map .bool

/-- The element at coordinates. -/
def Tensor.element? (t : Tensor) (coords : List ℕ) : Option Element :=
  t.data.get? (Kernel.place t.dims coords)

/-- The element that is stored for a number. -/
def DType.element (dtype : DType) (x : Float) : Element :=
  match dtype with
  | .f32 => .f32 (Number.narrow x)
  | .f16 => .f32 (Number.roundToHalf (Number.narrow x))
  | .f64 => .f64 x
  | .i8 => .i32 (Int32.ofInt (Number.truncate 8 x))
  | .i32 => .i32 (Int32.ofInt (Number.truncate 32 x))
  | .i64 => .i64 (Int64.ofInt (Number.truncate 64 x))
  | .bool => .bool (if x == 0.0 then 0 else 1)

theorem Elements.get?_store (values : Array Float) (dtype : DType) (index : ℕ) :
    (Tensor.store values dtype).get? index = values[index]?.map dtype.element := by
  cases dtype with
  | f64 => rfl
  | _ => simp only [Tensor.store, get?, Array.getElem?_map, Option.map_map]; rfl

end HybridGraph
