import HybridGraph.Proofs.Guarded.Broadcasting
import HybridGraph.Proofs.Kernel.Lanes
/-!
# Guarded work along axes

Softmax and running sums go through lanes, which they read and write by flat indices; a reduction
finds the cell of every element from its coordinates.  All these indices lie inside the operand and
the result, whatever the extents and the axes are:

    x.WellFormed → Ends Proper WellFormed (softmax x axis dtype) (Kernel.softmax x axis dtype)
    x.WellFormed → Ends Proper WellFormed (cumsum x axis dtype) (Kernel.cumsum x axis dtype)
    x.WellFormed → Ends Proper WellFormed (reduce x axes keep mean dtype)
      (Kernel.reduce x axes keep mean dtype)
-/

namespace HybridGraph.Guarded

variable {ε α : Type} {dims : List ℕ} {axis : ℕ}

/-! ## Along one axis -/

/-- The flat indices along `axis`, one list for every setting of the other axes. -/
def lanes (dims : List ℕ) (axis : ℕ) : Guarded ε (List (List ℕ)) := do
  let extent ← entry dims axis
  let inner := elementCount (← back dims (axis + 1))
  let outer := elementCount (← front dims axis)
  return (List.range outer).flatMap fun o =>
    (List.range inner).map fun i =>
      (List.range extent).map fun a => (o * extent + a) * inner + i

/-- Writes the values of one lane. -/
def writeLane (out : Array α) : List ℕ → List α → Guarded ε (Array α)
  | index :: lane, value :: values => do writeLane (← write out index value) lane values
  | _, _ => return out

/-- Replaces every lane along `axis` by its image. -/
def mapLanes (values : Array Float) (dims : List ℕ) (axis : ℕ)
    (image : List Float → List Float) : Guarded ε (Array Float) := do
  (← lanes dims axis).foldlM
    (fun out lane => do writeLane out lane (image (← lane.mapM (read values))))
    (Array.replicate values.size 0.0)

/-- Softmax along an axis; a tensor without axes becomes one. -/
def softmax (x : Tensor) (axis : ℕ) (dtype : DType) : Guarded KernelError Tensor := do
  if x.rank = 0 then plain (Kernel.build dtype [] #[1.0])
  else if x.rank ≤ axis then throw (.softmaxAxis axis x.dims)
  else
    let out ← mapLanes x.doubles x.dims axis Kernel.softmaxLane
    plain (Kernel.build dtype x.dims out)

/-- Running sums along an axis. -/
def cumsum (x : Tensor) (axis : ℕ) (dtype : DType) : Guarded KernelError Tensor := do
  if x.rank = 0 then plain (Kernel.build dtype [] x.doubles)
  else if x.rank ≤ axis then throw (.cumsumAxis axis x.dims)
  else
    let out ← mapLanes x.doubles x.dims axis (Kernel.runningSums 0.0)
    plain (Kernel.build dtype x.dims out)

theorem lanes_eq (haxis : axis < dims.length) :
    (lanes dims axis : Guarded ε (List (List ℕ))) = pure (Kernel.lanes dims axis) := by
  have hextent : Kernel.extentAt dims axis = dims[axis] := List.getD_eq_getElem _ _ haxis
  rw [lanes, entry_of_lt haxis, pure_bind, back_of_le haxis, pure_bind,
    front_of_le (Nat.le_of_lt haxis), pure_bind, ← hextent]
  rfl

theorem writeLane_eq {lane : List ℕ} (values : List α) {out : Array α}
    (h : ∀ index ∈ lane, index < out.size) :
    (writeLane out lane values : Guarded ε (Array α)) =
      pure (Kernel.writeLane out lane values) := by
  induction lane generalizing out values with
  | nil => rfl
  | cons index lane ih =>
    rw [List.forall_mem_cons] at h
    cases values with
    | nil => rfl
    | cons value values =>
      have hlane : ∀ i ∈ lane, i < (out.setIfInBounds index value).size := by simpa using h.2
      rw [writeLane, write_of_lt h.1, pure_bind, ih values hlane]
      rfl

theorem mapLanes_ends {p : KernelError → Prop} {values : Array Float} (haxis : axis < dims.length)
    (hsize : values.size = elementCount dims) (image : List Float → List Float) :
    Ends p (fun out => out.size = values.size) (mapLanes values dims axis image)
      (Kernel.mapLanes values dims axis image) := by
  unfold mapLanes Kernel.mapLanes
  rw [lanes_eq haxis, pure_bind]
  refine .foldlM (fun out hout lane hlane => ?_) (by simp)
  have hinside : ∀ index ∈ lane, index < values.size := fun index hindex =>
    hsize ▸ Kernel.lt_of_mem_lanes haxis hlane hindex
  refine (Ends.mapM fun index hindex => read_ends (hinside index hindex)).bind fun held _ _ => ?_
  rw [writeLane_eq (image held) (hout ▸ hinside)]
  exact .pure (by rw [Kernel.writeLane_eq_perform, Kernel.size_perform, hout])

theorem softmax_ends {x : Tensor} (hx : x.WellFormed) (axis : ℕ) (dtype : DType) :
    Ends KernelError.Proper Tensor.WellFormed (softmax x axis dtype)
      (Kernel.softmax x axis dtype) := by
  unfold softmax Kernel.softmax
  split
  · exact build_ends _ _ _
  split
  · exact .error trivial
  · next haxis =>
    exact (mapLanes_ends (Nat.lt_of_not_le haxis) hx.size_doubles _).bind fun out _ _ =>
      build_ends _ _ _

theorem cumsum_ends {x : Tensor} (hx : x.WellFormed) (axis : ℕ) (dtype : DType) :
    Ends KernelError.Proper Tensor.WellFormed (cumsum x axis dtype)
      (Kernel.cumsum x axis dtype) := by
  unfold cumsum Kernel.cumsum
  split
  · exact build_ends _ _ _
  split
  · exact .error trivial
  · next haxis =>
    exact (mapLanes_ends (Nat.lt_of_not_le haxis) hx.size_doubles _).bind fun out _ _ =>
      build_ends _ _ _

/-! ## Over several axes -/

/-- The extents with the reduced axes set to one. -/
def keptExtents (dims axes : List ℕ) : Guarded ε (List ℕ) :=
  (List.range dims.length).mapM fun axis =>
    if axes.contains axis then return 1 else entry dims axis

/-- The extents without the reduced axes. -/
def droppedExtents (dims axes : List ℕ) : Guarded ε (List ℕ) :=
  ((List.range dims.length).filter fun axis => !axes.contains axis).mapM (entry dims)

/-- Adds a value to one cell. -/
def addAt [Add α] (sums : Array α) (index : ℕ) (value : α) : Guarded ε (Array α) := do
  let sum ← read sums index
  write sums index (sum + value)

/-- Adds every element, in order, to the cell with the same kept coordinates. -/
def reduceValues [OfNat α 0] [Add α] (values : Array α) (dims axes kept : List ℕ) :
    Guarded ε (Array α) :=
  (List.range values.size).foldlM
    (fun sums index => do
      let (coords, _) ← unravel dims index
      let terms ← coords.zipIdx.mapM fun (coord, axis) =>
        if axes.contains axis then return 0
        else return coord * (← entry (Kernel.strides kept) axis)
      addAt sums terms.sum (← read values index))
    (Array.replicate (elementCount kept) 0)

/-- Sums or averages over axes; with `keepDims` the reduced axes stay with extent one. -/
def reduce (x : Tensor) (axes : List ℕ) (keepDims mean : Bool) (dtype : DType) :
    Guarded KernelError Tensor := do
  match axes.find? (Nat.max x.rank 1 ≤ ·) with
  | some axis => throw (.reduceAxis axis x.dims)
  | none =>
    let kept ← keptExtents x.dims axes
    let sums ← reduceValues x.doubles x.dims axes kept
    let out := if mean then
        let count := Number.ofInt (Kernel.reducedCount x.dims axes)
        sums.map (· / count)
      else sums
    let dims ← if keepDims then pure kept else droppedExtents x.dims axes
    plain (Kernel.build dtype dims out)

theorem keptExtents_eq (dims axes : List ℕ) :
    (keptExtents dims axes : Guarded ε (List ℕ)) = pure (Kernel.keptExtents dims axes) := by
  rw [keptExtents,
    mapM_eq_pure (g := fun axis => if axes.contains axis then 1 else dims.getD axis 1)]
  · congr 1
    refine List.ext_getElem (by simp [Kernel.keptExtents]) fun i hi hi' => ?_
    have hlt : i < dims.length := by simpa using hi
    simp [Kernel.keptExtents, hlt]
  · intro axis haxis
    have haxis := List.mem_range.mp haxis
    split
    · rfl
    · rw [entry_of_lt haxis, List.getD_eq_getElem]

theorem droppedExtents_eq (dims axes : List ℕ) :
    (droppedExtents dims axes : Guarded ε (List ℕ)) = pure (Kernel.droppedExtents dims axes) := by
  have hnumbered : dims.zipIdx =
      (List.range dims.length).map fun axis => (dims.getD axis 1, axis) := by
    refine List.ext_getElem (by simp) fun i hi hi' => ?_
    have hlt : i < dims.length := by simpa using hi
    simp [hlt]
  rw [droppedExtents, mapM_eq_pure (g := fun axis => dims.getD axis 1)]
  · rw [Kernel.droppedExtents, hnumbered, List.filter_map, List.map_map]
    rfl
  · intro axis haxis
    have haxis := List.mem_range.mp (List.mem_filter.mp haxis).1
    rw [entry_of_lt haxis, List.getD_eq_getElem]

theorem length_keptSteps (dims axes : List ℕ) :
    (Kernel.keptSteps dims axes).length = dims.length := by
  rw [Kernel.keptSteps, List.length_mapIdx, Kernel.length_strides, Kernel.length_keptExtents]

/-- The steps of coordinates, of which those on reduced axes are not looked at. -/
theorem keptTerms_eq {coords : List ℕ} (axes : List ℕ) (hcoords : coords.length = dims.length) :
    (coords.zipIdx.mapM fun (coord, axis) =>
      if axes.contains axis then pure 0
      else do return coord * (← entry (Kernel.strides (Kernel.keptExtents dims axes)) axis) :
        Guarded ε (List ℕ)) =
      pure (List.zipWith (· * ·) coords (Kernel.keptSteps dims axes)) := by
  have hsteps := length_keptSteps dims axes
  rw [mapM_eq_pure (g := fun (coord, axis) => coord * (Kernel.keptSteps dims axes).getD axis 0)]
  · congr 1
    refine List.ext_getElem (by simp; omega) fun i hi hi' => ?_
    have hlt : i < (Kernel.keptSteps dims axes).length := by simp at hi; omega
    simp [hlt]
  · rintro ⟨coord, axis⟩ hmem
    have haxis : axis < coords.length := (List.mem_zipIdx' hmem).1
    have hlt : axis < (Kernel.keptSteps dims axes).length := by omega
    have hstride : axis < (Kernel.strides (Kernel.keptExtents dims axes)).length := by
      rw [Kernel.length_strides, Kernel.length_keptExtents]
      omega
    have hstep : (Kernel.keptSteps dims axes)[axis] =
        if axes.contains axis then 0 else
          (Kernel.strides (Kernel.keptExtents dims axes))[axis] := List.getElem_mapIdx
    dsimp only
    rw [List.getD_eq_getElem _ _ hlt, hstep]
    split
    · rfl
    · rw [entry_of_lt hstride, pure_bind]

theorem reduceValues_ends {p : KernelError → Prop} [OfNat α 0] [Add α] {values : Array α}
    (hsize : values.size = elementCount dims) (axes : List ℕ) :
    Ends p (fun _ => True) (reduceValues values dims axes (Kernel.keptExtents dims axes))
      (Kernel.reduceValues values dims axes) := by
  unfold reduceValues Kernel.reduceValues
  refine .imp (q := fun sums => sums.size = elementCount (Kernel.keptExtents dims axes))
    (.foldlM (fun sums hsums index hindex => ?_) (by simp)) fun _ _ _ => trivial
  have hindex := List.mem_range.mp hindex
  have hplace : index < elementCount dims := hsize ▸ hindex
  have hcoords := Kernel.within_unravel hplace
  rw [unravel_of_lt hplace, pure_bind]
  dsimp only
  rw [keptTerms_eq axes hcoords.length_eq, pure_bind, ← Kernel.dot_eq_sum]
  refine (read_ends hindex).bind fun value _ _ => ?_
  have hcell : Kernel.dot (Kernel.unravel dims index) (Kernel.keptSteps dims axes) < sums.size :=
    hsums ▸ Kernel.dot_keptSteps_lt axes hcoords
  rw [addAt, read_of_lt hcell, pure_bind, write_of_lt hcell, Kernel.addAt, dif_pos hcell,
    Array.setIfInBounds, dif_pos hcell]
  exact .pure ((Array.size_set hcell).trans hsums)

theorem reduce_ends {x : Tensor} (hx : x.WellFormed) (axes : List ℕ) (keepDims mean : Bool)
    (dtype : DType) : Ends KernelError.Proper Tensor.WellFormed (reduce x axes keepDims mean dtype)
      (Kernel.reduce x axes keepDims mean dtype) := by
  unfold reduce Kernel.reduce
  cases axes.find? (Nat.max x.rank 1 ≤ ·) with
  | some axis => exact .error trivial
  | none =>
    dsimp only
    rw [keptExtents_eq, pure_bind]
    refine (reduceValues_ends hx.size_doubles axes).bind fun sums _ _ => ?_
    cases keepDims with
    | true => exact build_ends _ _ _
    | false =>
      rw [if_neg (by simp), droppedExtents_eq, pure_bind]
      exact build_ends _ _ _

end HybridGraph.Guarded
