import HybridGraph.Proofs.Kernel.Layout
/-!
# Sums over axes

A reduction goes through the elements in order and adds each to a cell of the result, whose place it
finds from the strides of the kept axes.  That cell is the one whose coordinates agree with those of
the element on the kept axes, there is exactly one, and so a cell holds the sum, from zero and in
order, of the elements that agree with it:

    sums[place kept cell]? =
      some (((coordinates dims).filter (Agrees axes · cell)).foldl (· + valueAt ·) 0)
                                                                               (exists_reduceValues)

Nothing here depends on what is added up.  Where addition is that of a field, sums may be taken in
steps, and so may means: reducing axes `A` and then axes `B` is reducing all of them
(`reduced_reduced`).
-/

namespace HybridGraph.Kernel

variable {α : Type} {dims axes cell coords : List ℕ}

/-! ## Cells -/

/-- The coordinates of an element agree with those of a cell on all axes that are not reduced. -/
def Agrees (axes coords cell : List ℕ) : Prop :=
  ∀ axis < coords.length, axis ∉ axes → cell[axis]? = coords[axis]?

instance (axes coords cell : List ℕ) : Decidable (Agrees axes coords cell) :=
  inferInstanceAs (Decidable (∀ axis < coords.length, axis ∉ axes → cell[axis]? = coords[axis]?))

theorem getElem?_keptCoords (axes coords : List ℕ) (axis : ℕ) :
    (keptCoords axes coords)[axis]? =
      coords[axis]?.map fun coord => if axes.contains axis then 0 else coord :=
  List.getElem?_mapIdx

theorem getElem?_keptExtents (dims axes : List ℕ) (axis : ℕ) :
    (keptExtents dims axes)[axis]? =
      dims[axis]?.map fun extent => if axes.contains axis then 1 else extent :=
  List.getElem?_mapIdx

/-- Among the cells of a result an element agrees with one. -/
theorem agrees_iff (hcell : Within cell (keptExtents dims axes)) (hcoords : Within coords dims) :
    Agrees axes coords cell ↔ keptCoords axes coords = cell := by
  have hlength : cell.length = coords.length := by
    rw [hcell.length_eq, length_keptExtents, hcoords.length_eq]
  constructor
  · intro h
    refine List.ext_getElem? fun axis => ?_
    rw [getElem?_keptCoords]
    by_cases haxis : axis < coords.length
    · by_cases hmem : axis ∈ axes
      · -- on a reduced axis the cell has no room
        have hlt := (List.forall₂_iff_get.mp hcell).2 axis (by omega) (by
          rw [length_keptExtents, ← hcoords.length_eq]
          exact haxis)
        simp only [List.get_eq_getElem, keptExtents, List.getElem_mapIdx, List.contains_iff_mem,
          hmem, if_true, Nat.lt_one_iff] at hlt
        simp [haxis, hmem, hlength, hlt]
      · rw [h axis haxis hmem]
        simp [haxis, hmem]
    · rw [List.getElem?_eq_none (by omega), List.getElem?_eq_none (by omega)]
      rfl
  · rintro rfl axis haxis hmem
    rw [getElem?_keptCoords]
    simp [haxis, hmem]

theorem existsUnique_agrees (axes : List ℕ) (hcoords : Within coords dims) :
    ∃! cell, Within cell (keptExtents dims axes) ∧ Agrees axes coords cell := by
  have hkept := within_keptCoords axes hcoords
  refine ⟨keptCoords axes coords, ⟨hkept, (agrees_iff hkept hcoords).mpr rfl⟩, ?_⟩
  rintro cell ⟨hcell, hagrees⟩
  exact ((agrees_iff hcell hcoords).mp hagrees).symm

/-- The coordinates that meet in a cell, in the order of their elements. -/
def meeting (dims axes cell : List ℕ) : List (List ℕ) :=
  (coordinates dims).filter fun coords => Agrees axes coords cell

example : meeting [2, 3] [0] [0, 1] = [[0, 1], [1, 1]] := by decide

theorem meeting_eq (hcell : Within cell (keptExtents dims axes)) :
    meeting dims axes cell = (coordinates dims).filter (keptCoords axes · = cell) :=
  List.filter_congr fun coords hcoords => by
    simp only [agrees_iff hcell (mem_coordinates.mp hcoords)]

/-! ## Sums -/

section

variable [OfNat α 0] [Add α] {values : Array α}

/-- The strides lead from an element to its cell. -/
theorem dot_unravel_keptSteps (hcoords : Within coords dims) (axes : List ℕ) :
    dot (unravel dims (place dims coords)) (keptSteps dims axes) =
      place (keptExtents dims axes) (keptCoords axes coords) := by
  rw [unravel_place hcoords, dot_keptSteps, place_eq_dot]
  rw [length_keptCoords, length_keptExtents, hcoords.length_eq]

/-- Elements that are added one after the other, each to its own cell. -/
theorem exists_foldlM_addAt {cs : List (List ℕ)} {start : Array α}
    (hsize : values.size = elementCount dims) (hcs : ∀ coords ∈ cs, Within coords dims)
    (hstart : start.size = elementCount (keptExtents dims axes)) :
    ∃ sums, (cs.map (place dims)).foldlM (fun sums index => do
        addAt sums (dot (unravel dims index) (keptSteps dims axes)) (← fetch values index))
          start = .ok sums ∧
      sums.size = elementCount (keptExtents dims axes) ∧
        ∀ cell, Within cell (keptExtents dims axes) →
          sums[place (keptExtents dims axes) cell]? =
            start[place (keptExtents dims axes) cell]?.map fun first =>
              (cs.filter (keptCoords axes · = cell)).foldl
                (fun sum coords => sum + valueAt values dims coords) first := by
  induction cs generalizing start with
  | nil => exact ⟨start, rfl, hstart, fun cell _ => by simp⟩
  | cons coords cs ih =>
    obtain ⟨hcoords, hcs⟩ := List.forall_mem_cons.mp hcs
    have hkept := within_keptCoords axes hcoords
    have hplace : place (keptExtents dims axes) (keptCoords axes coords) < start.size :=
      hstart ▸ place_lt hkept
    have hread := fetch_eq_ok.mpr (getElem?_place hsize hcoords)
    have hnext : (start.set _ (start[place (keptExtents dims axes) (keptCoords axes coords)] +
        valueAt values dims coords) hplace).size = elementCount (keptExtents dims axes) := by
      rw [Array.size_set, hstart]
    obtain ⟨sums, hfold, hsums, hcells⟩ := ih hcs hnext
    refine ⟨sums, Outcome.foldlM_cons_eq_ok.mpr ⟨_, ?_, hfold⟩, hsums, fun cell hcell => ?_⟩
    · rw [hread, dot_unravel_keptSteps hcoords]
      exact dif_pos hplace
    · rw [hcells cell hcell, Array.getElem?_set, List.filter_cons]
      by_cases hsame : keptCoords axes coords = cell
      · subst hsame
        simp [hplace]
      · rw [if_neg (fun h => hsame ((place_inj hkept hcell).mp h)), if_neg (by simpa using hsame)]

theorem exists_reduceValues (hsize : values.size = elementCount dims) (axes : List ℕ) :
    ∃ sums, reduceValues values dims axes = .ok sums ∧
      sums.size = elementCount (keptExtents dims axes) ∧
        ∀ cell, Within cell (keptExtents dims axes) →
          sums[place (keptExtents dims axes) cell]? = some ((meeting dims axes cell).foldl
            (fun sum coords => sum + valueAt values dims coords) 0) := by
  have hcs : ∀ coords ∈ coordinates dims, Within coords dims := fun _ => mem_coordinates.mp
  have hstart : (Array.replicate (elementCount (keptExtents dims axes)) (0 : α)).size =
      elementCount (keptExtents dims axes) := Array.size_replicate
  obtain ⟨sums, hfold, hsums, hcells⟩ := exists_foldlM_addAt hsize hcs hstart
  rw [map_place_coordinates, ← hsize] at hfold
  refine ⟨sums, hfold, hsums, fun cell hcell => ?_⟩
  rw [hcells cell hcell, meeting_eq hcell]
  simp [place_lt hcell]

end

/-! ## Sums in steps -/

section

variable {A B C : List ℕ} (hC : ∀ axis, axis ∈ C ↔ axis ∈ A ∨ axis ∈ B)

include hC

theorem keptExtents_keptExtents (dims : List ℕ) :
    keptExtents (keptExtents dims A) B = keptExtents dims C := by
  refine List.ext_getElem? fun axis => ?_
  rw [getElem?_keptExtents, getElem?_keptExtents, getElem?_keptExtents, Option.map_map]
  congr 1
  funext extent
  simp only [Function.comp_apply, List.contains_iff_mem, hC]
  by_cases hA : axis ∈ A <;> by_cases hB : axis ∈ B <;> simp [hA, hB]

theorem keptCoords_keptCoords (coords : List ℕ) :
    keptCoords B (keptCoords A coords) = keptCoords C coords := by
  refine List.ext_getElem? fun axis => ?_
  rw [getElem?_keptCoords, getElem?_keptCoords, getElem?_keptCoords, Option.map_map]
  congr 1
  funext coord
  simp only [Function.comp_apply, List.contains_iff_mem, hC]
  by_cases hA : axis ∈ A <;> by_cases hB : axis ∈ B <;> simp [hA, hB]

end

/-- Where addition is associative and commutative, a cell holds the sum over a set. -/
theorem foldl_meeting [AddCommMonoid α] (hcell : Within cell (keptExtents dims axes))
    (f : List ℕ → α) : (meeting dims axes cell).foldl (fun sum coords => sum + f coords) 0 =
      ∑ coords ∈ (coordinates dims).toFinset with keptCoords axes coords = cell, f coords := by
  rw [meeting_eq hcell, ← List.foldl_map (g := (· + ·)), ← List.sum_eq_foldl,
    ← List.sum_toFinset f ((nodup_coordinates dims).filter _), List.toFinset_filter]
  simp only [decide_eq_true_eq]

theorem reduceValues_reduceValues [AddCommMonoid α] {values : Array α} {A B C : List ℕ}
    (hC : ∀ axis, axis ∈ C ↔ axis ∈ A ∨ axis ∈ B) (hsize : values.size = elementCount dims) :
    (reduceValues values dims A >>= fun sums => reduceValues sums (keptExtents dims A) B) =
      reduceValues values dims C := by
  obtain ⟨first, hfirst, hfirstSize, hfirstCells⟩ := exists_reduceValues hsize A
  obtain ⟨second, hsecond, hsecondSize, hsecondCells⟩ := exists_reduceValues hfirstSize B
  obtain ⟨whole, hwhole, hwholeSize, hwholeCells⟩ := exists_reduceValues hsize C
  have hkept := keptExtents_keptExtents hC dims
  rw [hfirst, hwhole]
  show reduceValues first _ _ = _
  rw [hsecond]
  refine congrArg _ (ext_place (hkept ▸ hsecondSize) hwholeSize fun cell hcell => ?_)
  rw [hwholeCells cell hcell, ← hkept, hsecondCells cell (hkept ▸ hcell)]
  rw [foldl_meeting (hkept ▸ hcell), foldl_meeting hcell]
  congr 1
  have hinner : ∀ coords ∈ (coordinates (keptExtents dims A)).toFinset,
      valueAt first (keptExtents dims A) coords =
        ∑ c ∈ (coordinates dims).toFinset with keptCoords A c = coords, valueAt values dims c := by
    intro coords hmem
    have hcoords := mem_coordinates.mp (List.mem_toFinset.mp hmem)
    rw [← foldl_meeting hcoords]
    exact Option.some.inj ((getElem?_place hfirstSize hcoords).symm.trans
      (hfirstCells coords hcoords))
  -- an element meets its partners in the first step or in the second
  calc ∑ coords ∈ (coordinates (keptExtents dims A)).toFinset with keptCoords B coords = cell,
        valueAt first (keptExtents dims A) coords
      = ∑ coords ∈ (coordinates (keptExtents dims A)).toFinset with keptCoords B coords = cell,
          ∑ c ∈ (coordinates dims).toFinset with keptCoords C c = cell ∧ keptCoords A c = coords,
            valueAt values dims c := by
        refine Finset.sum_congr rfl fun coords hmem => ?_
        obtain ⟨hmem, hB⟩ := Finset.mem_filter.mp hmem
        rw [hinner coords hmem]
        refine Finset.sum_congr (Finset.filter_congr fun c _ => ?_) fun _ _ => rfl
        refine ⟨fun hA => ⟨?_, hA⟩, And.right⟩
        rw [← keptCoords_keptCoords hC, hA, hB]
    _ = ∑ c ∈ (coordinates dims).toFinset with keptCoords C c = cell, valueAt values dims c := by
        simp only [← Finset.filter_filter]
        refine Finset.sum_fiberwise_of_maps_to (fun c hmem => ?_) _
        obtain ⟨hmem, hc⟩ := Finset.mem_filter.mp hmem
        have hwithin := mem_coordinates.mp (List.mem_toFinset.mp hmem)
        refine Finset.mem_filter.mpr ⟨?_, (keptCoords_keptCoords hC c).trans hc⟩
        exact List.mem_toFinset.mpr (mem_coordinates.mpr (within_keptCoords A hwithin))

/-! ## Means -/

theorem reducedCount_eq (dims axes : List ℕ) :
    reducedCount dims axes = (axes.map (extentAt dims)).prod := by
  rw [reducedCount, Inference.elementCount_eq_prod]
  induction axes with
  | nil => rfl
  | cons axis axes ih =>
    rw [List.map_cons, List.prod_cons, ← ih, List.filterMap_cons, extentAt, List.getD]
    cases dims[axis]? with
    | none => exact (Nat.one_mul _).symm
    | some extent => exact List.prod_cons

theorem extentAt_keptExtents (dims axes : List ℕ) (axis : ℕ) :
    extentAt (keptExtents dims axes) axis = if axis ∈ axes then 1 else extentAt dims axis := by
  rw [extentAt, extentAt, List.getD, List.getD, getElem?_keptExtents]
  cases dims[axis]? with
  | none => simp
  | some extent => simp

/-- As many elements meet in two steps as in one. -/
theorem reducedCount_mul {A B C : List ℕ} (hA : A.Nodup) (hB : B.Nodup) (hCnodup : C.Nodup)
    (hC : ∀ axis, axis ∈ C ↔ axis ∈ A ∨ axis ∈ B) (dims : List ℕ) :
    reducedCount dims A * reducedCount (keptExtents dims A) B = reducedCount dims C := by
  have hperm : C.Perm (A ++ B.filter (· ∉ A)) := by
    refine (List.perm_ext_iff_of_nodup hCnodup ?_).mpr fun axis => ?_
    · refine List.nodup_append.mpr ⟨hA, hB.filter _, fun a ha b hb => ?_⟩
      rintro rfl
      simp [ha] at hb
    · simp only [hC, List.mem_append, List.mem_filter, decide_eq_true_eq]
      tauto
  have hrest : (B.map (extentAt (keptExtents dims A))).prod =
      ((B.filter (· ∉ A)).map (extentAt dims)).prod := by
    clear hB hC hperm
    induction B with
    | nil => rfl
    | cons axis B ih =>
      rw [List.map_cons, List.prod_cons, ih, extentAt_keptExtents, List.filter_cons]
      by_cases hmem : axis ∈ A <;> simp [hmem]
  rw [reducedCount_eq, reducedCount_eq, reducedCount_eq, hrest, (hperm.map _).prod_eq,
    List.map_append, List.prod_append]

/-- Sums or means over axes, for numbers into which counts are turned by `ofCount`. -/
def reduced [OfNat α 0] [Add α] [Div α] (ofCount : ℕ → α) (mean : Bool) (values : Array α)
    (dims axes : List ℕ) : Except KernelError (Array α) := do
  let sums ← reduceValues values dims axes
  return if mean then sums.map (· / ofCount (reducedCount dims axes)) else sums

/-- A reduction over axes that exist. -/
theorem reduce_of_lt {t : Tensor} {keep mean : Bool} {dtype : DType}
    (haxes : ∀ axis ∈ axes, axis < max t.rank 1) : reduce t axes keep mean dtype = (do
      let sums ← reduceValues t.doubles t.dims axes
      build dtype (if keep then keptExtents t.dims axes else droppedExtents t.dims axes)
        (if mean then sums.map (· / Number.ofInt (reducedCount t.dims axes)) else sums)) := by
  have hnone : axes.find? (Nat.max t.rank 1 ≤ ·) = none := by
    rw [List.find?_eq_none]
    intro axis haxis hle
    exact absurd (haxes axis haxis) (Nat.not_lt.mpr (of_decide_eq_true hle))
  unfold reduce
  rw [hnone]

theorem exists_reduced [OfNat α 0] [Add α] [Div α] {values : Array α}
    (hsize : values.size = elementCount dims) (ofCount : ℕ → α) (mean : Bool) (axes : List ℕ) :
    ∃ out, reduced ofCount mean values dims axes = .ok out ∧
      out.size = elementCount (keptExtents dims axes) ∧
        ∀ cell, Within cell (keptExtents dims axes) →
          let total := (meeting dims axes cell).foldl
            (fun sum coords => sum + valueAt values dims coords) 0
          out[place (keptExtents dims axes) cell]? =
            some (if mean then total / ofCount (axes.map (extentAt dims)).prod else total) := by
  obtain ⟨sums, hsums, hsumsSize, hcells⟩ := exists_reduceValues hsize axes
  refine ⟨_, Outcome.bind_of_eq_ok hsums _, ?_⟩
  cases mean with
  | false => exact ⟨hsumsSize, hcells⟩
  | true =>
    refine ⟨by simpa using hsumsSize, fun cell hcell => ?_⟩
    simp [hcells cell hcell, reducedCount_eq]

/-- A function that respects sums may be applied before or after they are taken. -/
theorem reduceValues_map [OfNat α 0] [Add α] {values : Array α} {f : α → α} (hzero : f 0 = 0)
    (hadd : ∀ a b, f (a + b) = f a + f b) (hsize : values.size = elementCount dims) :
    reduceValues (values.map f) dims axes = (·.map f) <$> reduceValues values dims axes := by
  obtain ⟨sums, hsums, hsumsSize, hcells⟩ := exists_reduceValues hsize axes
  have himage : (values.map f).size = elementCount dims := by rw [Array.size_map, hsize]
  obtain ⟨images, himages, himagesSize, himagesCells⟩ := exists_reduceValues himage axes
  rw [hsums, himages]
  refine congrArg _ (ext_place himagesSize (by rw [Array.size_map, hsumsSize]) fun cell hcell => ?_)
  rw [himagesCells cell hcell, Array.getElem?_map, hcells cell hcell, Option.map_some]
  have hvalue (coords : List ℕ) :
      valueAt (values.map f) dims coords = f (valueAt values dims coords) := by
    simp only [valueAt, Array.getD_eq_getD_getElem?, Array.getElem?_map]
    cases values[place dims coords]? with
    | none => exact hzero.symm
    | some x => rfl
  congr 1
  conv_lhs => rw [← hzero]
  simp only [hvalue]
  exact List.foldl_hom f fun a coords => (hadd a _).symm

theorem reduced_reduced [Field α] {values : Array α} {A B C : List ℕ} (hA : A.Nodup) (hB : B.Nodup)
    (hCnodup : C.Nodup) (hC : ∀ axis, axis ∈ C ↔ axis ∈ A ∨ axis ∈ B) (mean : Bool)
    (hsize : values.size = elementCount dims) :
    (reduced Nat.cast mean values dims A >>= fun out =>
      reduced Nat.cast mean out (keptExtents dims A) B) = reduced Nat.cast mean values dims C := by
  obtain ⟨first, hfirst, hfirstSize, -⟩ := exists_reduceValues hsize A
  obtain ⟨second, hsecond, -, -⟩ := exists_reduceValues hfirstSize B
  have hwhole := reduceValues_reduceValues hC hsize
  rw [hfirst] at hwhole
  replace hwhole : reduceValues first (keptExtents dims A) B = _ := hwhole
  unfold reduced
  rw [hfirst, ← hwhole]
  cases mean with
  | false =>
    show (reduceValues first _ _ >>= _) = _
    rw [hsecond]
    rfl
  | true =>
    have hdivided :
        reduceValues (first.map (· / (reducedCount dims A : α))) (keptExtents dims A) B =
          (·.map (· / (reducedCount dims A : α))) <$> reduceValues first (keptExtents dims A) B :=
      reduceValues_map (zero_div _) (fun a b => add_div a b _) hfirstSize
    show (reduceValues (first.map (· / (reducedCount dims A : α))) _ _ >>= _) = _
    rw [hdivided, hsecond]
    refine congrArg Except.ok ?_
    rw [if_pos rfl, if_pos rfl, Array.map_map, ← reducedCount_mul hA hB hCnodup hC dims,
      Nat.cast_mul]
    simp only [Function.comp_def, div_div]

/-! ## Reductions of tensors -/

theorem reduce_eq_reduced {t : Tensor} {keep mean : Bool} {dtype : DType}
    (haxes : ∀ axis ∈ axes, axis < max t.rank 1) : reduce t axes keep mean dtype =
      reduced (fun n => Number.ofInt n) mean t.doubles t.dims axes >>=
        build dtype (if keep then keptExtents t.dims axes else droppedExtents t.dims axes) := by
  rw [reduce_of_lt haxes, reduced, bind_assoc]
  rfl

/-- Without its unit axes a result has as many cells. -/
theorem elementCount_droppedExtents (dims axes : List ℕ) :
    elementCount (droppedExtents dims axes) = elementCount (keptExtents dims axes) := by
  have hkept : keptExtents dims axes =
      dims.zipIdx.map fun entry => if axes.contains entry.2 then 1 else entry.1 := by
    rw [keptExtents, List.mapIdx_eq_zipIdx_map]
  rw [hkept, droppedExtents]
  generalize dims.zipIdx = entries
  induction entries with
  | nil => rfl
  | cons entry entries ih =>
    rw [List.map_cons, elementCount_cons, ← ih, List.filter_cons]
    cases axes.contains entry.2 with
    | true => exact (Nat.one_mul _).symm
    | false => exact elementCount_cons _ _

end HybridGraph.Kernel
