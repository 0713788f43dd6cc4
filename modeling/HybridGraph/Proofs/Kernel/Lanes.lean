import HybridGraph.Kernel.Reduction
import HybridGraph.Proofs.Kernel.Layout
import Mathlib.Data.Multiset.Bind
/-!
# Lanes

The flat indices of a shape are the coordinates inside it, one for one: `unravel` takes an index
apart, and the product with the strides puts the coordinates together again (`bijOn_unravel`,
`invOn_dot_unravel`).

Lanes come from another reckoning, which knows an index as a block before an axis, a place on the
axis and a place behind it.  In coordinates, a lane holds all axes still but one and lets that one
run upwards, and there is a lane for every setting of the axes before and behind it.  Together the
lanes have each flat index once:

    lanes (front ++ extent :: back) front.length =
      (coordinates front).flatMap fun before =>
        (coordinates back).map (laneThrough front extent back before)           (lanes_append_cons)
    axis < dims.length →
      (lanes dims axis).flatten.Perm (range (elementCount dims))               (perm_flatten_lanes)

A pass over the lanes is a list of writes, each to one cell (`mapLanes_eq_perform`).  Where the
image of a lane is as long as the lane, the cells that are written are those of the lanes, so each
is written once and keeps what it was given (`exists_writtenOnce`).
-/

namespace HybridGraph.Kernel

variable {α : Type} {dims coords front back before after : List ℕ} {axis extent index : ℕ}

/-! ## Flat indices -/

theorem bijOn_unravel (dims : List ℕ) :
    Set.BijOn (unravel dims) {index | index < elementCount dims} {coords | Within coords dims} := by
  refine ⟨fun index hindex => within_unravel hindex, fun index hindex other hother h => ?_,
    fun coords hcoords => ⟨place dims coords, place_lt hcoords, unravel_place hcoords⟩⟩
  rw [← place_unravel hindex, h, place_unravel hother]

theorem invOn_dot_unravel (dims : List ℕ) :
    Set.InvOn (fun coords => dot coords (strides dims)) (unravel dims)
      {index | index < elementCount dims} {coords | Within coords dims} := by
  constructor
  · intro index hindex
    show dot _ _ = _
    rw [← place_eq_dot (length_unravel dims index), place_unravel hindex]
  · intro coords hcoords
    show unravel dims (dot _ _) = _
    rw [← place_eq_dot hcoords.length_eq, unravel_place hcoords]

/-! ## Lanes in coordinates -/

/-- The flat indices with given coordinates before and behind an axis, in the order of the axis. -/
def laneThrough (front : List ℕ) (extent : ℕ) (back before after : List ℕ) : List ℕ :=
  (List.range extent).map fun coord => place (front ++ extent :: back) (before ++ coord :: after)

theorem lanes_append_cons (front : List ℕ) (extent : ℕ) (back : List ℕ) :
    lanes (front ++ extent :: back) front.length =
      (coordinates front).flatMap fun before =>
        (coordinates back).map (laneThrough front extent back before) := by
  have hextent : extentAt (front ++ extent :: back) front.length = extent := by simp [extentAt]
  have hback : (front ++ extent :: back).drop (front.length + 1) = back := by simp
  unfold lanes
  dsimp only
  rw [hextent, hback, List.take_left, ← map_place_coordinates, ← map_place_coordinates,
    List.flatMap_map]
  refine List.flatMap_congr fun before hbefore => ?_
  rw [List.map_map]
  refine List.map_congr_left fun after hafter => List.map_congr_left fun coord _ => ?_
  have hbefore := (mem_coordinates.mp hbefore).length_eq
  have hafter := (mem_coordinates.mp hafter).length_eq
  have hrest : (coord :: after).length = (extent :: back).length := congrArg Nat.succ hafter
  rw [place_append hbefore hrest, place_cons hafter, elementCount_cons]
  ring

example : laneThrough [2] 3 [2] [1] [0] = [6, 8, 10] ∧
    lanes [2, 3, 2] 1 = [[0, 2, 4], [1, 3, 5], [6, 8, 10], [7, 9, 11]] := by decide

theorem mem_lanes {lane : List ℕ} : lane ∈ lanes (front ++ extent :: back) front.length ↔
    ∃ before after, Within before front ∧ Within after back ∧
      laneThrough front extent back before after = lane := by
  simp only [lanes_append_cons, List.mem_flatMap, List.mem_map, mem_coordinates,
    exists_and_left]

theorem within_append_cons : Within coords (front ++ extent :: back) ↔
    ∃ before coord after, coords = before ++ coord :: after ∧
      Within before front ∧ coord < extent ∧ Within after back := by
  constructor
  · intro h
    obtain ⟨before, rest, rfl, hbefore, hrest⟩ := exists_of_forall₂_append h.flip
    obtain _ | ⟨hcoord, hafter⟩ := hrest
    exact ⟨before, _, _, rfl, hbefore.flip, hcoord, hafter.flip⟩
  · rintro ⟨before, coord, after, rfl, hbefore, hcoord, hafter⟩
    exact List.rel_append hbefore (.cons hcoord hafter)

/-! ## Lanes as a partition -/

theorem coordinates_append (front back : List ℕ) : coordinates (front ++ back) =
    (coordinates front).flatMap fun before => (coordinates back).map (before ++ ·) := by
  induction front with
  | nil => simp [coordinates]
  | cons extent front ih =>
    simp only [List.cons_append, coordinates, ih, List.flatMap_assoc, List.map_flatMap,
      List.flatMap_map, List.map_map, Function.comp_def]

/-- Two loops one inside the other may change places, up to the order of what they list. -/
theorem perm_flatMap_map {β γ : Type} (xs : List α) (ys : List β) (f : α → β → γ) :
    (xs.flatMap fun x => ys.map (f x)).Perm (ys.flatMap fun y => xs.map (f · y)) := by
  have h := Multiset.bind_map_comm (xs : Multiset α) (ys : Multiset β) (f := f)
  simpa only [Multiset.map_coe, Multiset.coe_bind, Multiset.coe_eq_coe] using h

/-- The extents before an axis, its own and those behind it. -/
theorem exists_append_cons (haxis : axis < dims.length) :
    ∃ front extent back, dims = front ++ extent :: back ∧ front.length = axis :=
  ⟨dims.take axis, dims[axis], dims.drop (axis + 1), by simp, by simp; omega⟩

theorem perm_flatten_lanes (haxis : axis < dims.length) :
    (lanes dims axis).flatten.Perm (List.range (elementCount dims)) := by
  obtain ⟨front, extent, back, rfl, rfl⟩ := exists_append_cons haxis
  have hrange : List.range (elementCount (front ++ extent :: back)) =
      (coordinates front).flatMap fun before => (List.range extent).flatMap fun coord =>
        (coordinates back).map fun after =>
          place (front ++ extent :: back) (before ++ coord :: after) := by
    rw [← map_place_coordinates, coordinates_append, coordinates]
    simp only [List.map_flatMap, List.map_map, Function.comp_def]
  -- in order, indices run along what lies behind the axis first; lanes run along the axis first
  rw [hrange, lanes_append_cons, ← List.flatMap_id, List.flatMap_assoc]
  refine List.Perm.flatMap_left _ fun before _ => ?_
  rw [List.flatMap_map]
  exact perm_flatMap_map (coordinates back) (List.range extent) _

theorem lt_of_mem_lanes (haxis : axis < dims.length) {lane : List ℕ}
    (hlane : lane ∈ lanes dims axis) (hindex : index ∈ lane) : index < elementCount dims :=
  List.mem_range.mp ((perm_flatten_lanes haxis).mem_iff.mp (List.mem_flatten_of_mem hlane hindex))

theorem eraseIdx_append_cons (h : before.length = axis) (coord : ℕ) (after : List ℕ) :
    (before ++ coord :: after).eraseIdx axis = before ++ after := by
  simp [← h, List.eraseIdx_append_of_length_le]

/-- Along a lane the coordinate on its axis counts upwards from zero, and the lane has all places
whose other coordinates are the same. -/
theorem of_mem_lanes (haxis : axis < dims.length) {lane : List ℕ} (hlane : lane ∈ lanes dims axis) :
    lane.map (fun index => (unravel dims index)[axis]?) = (List.range dims[axis]).map some ∧
      ∀ index ∈ lane, ∀ other < elementCount dims, other ∈ lane ↔
        (unravel dims other).eraseIdx axis = (unravel dims index).eraseIdx axis := by
  obtain ⟨front, extent, back, rfl, rfl⟩ := exists_append_cons haxis
  obtain ⟨before, after, hbefore, hafter, rfl⟩ := mem_lanes.mp hlane
  have hwithin {coord : ℕ} (hcoord : coord < extent) :
      Within (before ++ coord :: after) (front ++ extent :: back) :=
    within_append_cons.mpr ⟨before, coord, after, rfl, hbefore, hcoord, hafter⟩
  constructor
  · have hextent : (front ++ extent :: back)[front.length] = extent := by simp
    rw [laneThrough, List.map_map, hextent]
    refine List.map_congr_left fun coord hcoord => ?_
    rw [Function.comp_apply, unravel_place (hwithin (List.mem_range.mp hcoord))]
    simp [← hbefore.length_eq]
  · intro index hindex other hother
    obtain ⟨coord, hcoord, rfl⟩ := List.mem_map.mp hindex
    obtain ⟨coords, hcoords, rfl⟩ := exists_place_eq hother
    rw [unravel_place hcoords, unravel_place (hwithin (List.mem_range.mp hcoord)),
      eraseIdx_append_cons hbefore.length_eq]
    constructor
    · intro hmem
      obtain ⟨coord', hcoord', heq⟩ := List.mem_map.mp hmem
      rw [← (place_inj (hwithin (List.mem_range.mp hcoord')) hcoords).mp heq,
        eraseIdx_append_cons hbefore.length_eq]
    · -- where all other coordinates agree, only the one on the axis is free
      intro heq
      obtain ⟨before', coord', after', rfl, hbefore', hcoord', hafter'⟩ :=
        within_append_cons.mp hcoords
      rw [eraseIdx_append_cons hbefore'.length_eq] at heq
      obtain ⟨rfl, rfl⟩ := List.append_inj heq (hbefore'.length_eq.trans hbefore.length_eq.symm)
      exact List.mem_map.mpr ⟨coord', List.mem_range.mpr hcoord', rfl⟩

/-! ## Writes -/

/-- An array after writes to its cells, one after the other. -/
def perform (out : Array α) (writes : List (ℕ × α)) : Array α :=
  writes.foldl (fun out write => out.setIfInBounds write.1 write.2) out

section

variable {out : Array α} {writes : List (ℕ × α)}

theorem perform_cons (out : Array α) (write : ℕ × α) (writes : List (ℕ × α)) :
    perform out (write :: writes) = perform (out.setIfInBounds write.1 write.2) writes := rfl

theorem size_perform (out : Array α) (writes : List (ℕ × α)) :
    (perform out writes).size = out.size := by
  induction writes generalizing out with
  | nil => rfl
  | cons write writes ih => rw [perform_cons, ih, Array.size_setIfInBounds]

theorem getElem?_perform_of_notMem (h : index ∉ writes.map Prod.fst) :
    (perform out writes)[index]? = out[index]? := by
  induction writes generalizing out with
  | nil => rfl
  | cons write writes ih =>
    rw [List.map_cons, List.mem_cons, not_or] at h
    rw [perform_cons, ih h.2, Array.getElem?_setIfInBounds_ne (Ne.symm h.1)]

/-- A cell that is written once keeps what was written. -/
theorem getElem?_perform (hnodup : (writes.map Prod.fst).Nodup) {write : ℕ × α}
    (hwrite : write ∈ writes) (hlt : write.1 < out.size) :
    (perform out writes)[write.1]? = some write.2 := by
  induction writes generalizing out with
  | nil => cases hwrite
  | cons first writes ih =>
    obtain ⟨hfirst, hnodup⟩ := List.nodup_cons.mp hnodup
    rw [perform_cons]
    cases hwrite with
    | head => rw [getElem?_perform_of_notMem hfirst, Array.getElem?_setIfInBounds_self_of_lt hlt]
    | tail _ hwrite => exact ih hnodup hwrite (Array.size_setIfInBounds.symm ▸ hlt)

end

theorem writeLane_eq_perform (out : Array α) (lane : List ℕ) (values : List α) :
    writeLane out lane values = perform out (lane.zip values) := by
  induction lane generalizing out values with
  | nil => rfl
  | cons index lane ih =>
    cases values with
    | nil => rfl
    | cons value values => exact ih _ values

/-- What a pass over the lanes writes: each index of a lane with its value, in order. -/
def laneWrites (values : Array Float) (dims : List ℕ) (axis : ℕ)
    (image : List Float → List Float) : List (ℕ × Float) :=
  (lanes dims axis).flatMap fun lane =>
    lane.zip (image (lane.map fun index => values.getD index 0))

section

variable {values : Array Float} {image : List Float → List Float}

theorem mapLanes_eq_perform (haxis : axis < dims.length) (hsize : values.size = elementCount dims)
    (image : List Float → List Float) : mapLanes values dims axis image =
      .ok (perform (Array.replicate values.size 0.0) (laneWrites values dims axis image)) := by
  unfold mapLanes laneWrites
  rw [perform, List.foldl_flatMap]
  refine Outcome.foldlM_of_eq_ok (fun out lane hlane => ?_) _
  have hread : lane.mapM (fetch values) = .ok (lane.map fun index => values.getD index 0) := by
    refine Outcome.mapM_eq_ok.mpr (List.forall₂_map_right_iff.mpr
      (List.forall₂_same.mpr fun index hindex => fetch_eq_ok.mpr ?_))
    have hlt : index < values.size := hsize ▸ lt_of_mem_lanes haxis hlane hindex
    simp [Array.getD, hlt]
  rw [hread]
  exact congrArg Except.ok (writeLane_eq_perform _ _ _)

/-- The cells that a pass writes are those of the lanes. -/
theorem map_fst_laneWrites (himage : ∀ lane, (image lane).length = lane.length)
    (values : Array Float) (dims : List ℕ) (axis : ℕ) :
    (laneWrites values dims axis image).map Prod.fst = (lanes dims axis).flatten := by
  rw [laneWrites, List.map_flatMap, ← List.flatMap_id]
  refine List.flatMap_congr fun lane _ => List.map_fst_zip ?_
  rw [himage, List.length_map]

end

theorem length_softmaxLane (lane : List Float) : (softmaxLane lane).length = lane.length := by
  simp [softmaxLane]

theorem length_runningSums (sum : Float) (lane : List Float) :
    (runningSums sum lane).length = lane.length := by
  induction lane generalizing sum with
  | nil => rfl
  | cons x lane ih => exact congrArg Nat.succ (ih _)

/-- A tensor made by a pass over the lanes of another one that writes every cell once. -/
structure WrittenOnce (x : Tensor) (axis : ℕ) (image : List Float → List Float) (y : Tensor) :
    Prop where
  dims : y.dims = x.dims
  performed : y.data = Tensor.store (perform (Array.replicate (elementCount y.dims) 0.0)
    (laneWrites x.doubles x.dims axis image)) y.dtype
  once : ((laneWrites x.doubles x.dims axis image).map Prod.fst).Perm
    (List.range (elementCount y.dims))
  holds : ∀ write ∈ laneWrites x.doubles x.dims axis image,
    y.data.get? write.1 = some (y.dtype.element write.2)

theorem exists_writtenOnce {x : Tensor} (hx : x.WellFormed) (haxis : axis < x.rank)
    {image : List Float → List Float} (himage : ∀ lane, (image lane).length = lane.length)
    (dtype : DType) :
    ∃ y, (mapLanes x.doubles x.dims axis image >>= build dtype x.dims) = .ok y ∧
      y.dtype = dtype ∧ WrittenOnce x axis image y := by
  have hsize := hx.size_doubles
  have honce := map_fst_laneWrites himage x.doubles x.dims axis ▸ perm_flatten_lanes haxis
  refine ⟨⟨dtype, x.dims, Tensor.store (perform (Array.replicate (elementCount x.dims) 0.0)
    (laneWrites x.doubles x.dims axis image)) dtype⟩, ?_, rfl, rfl, rfl, honce,
    fun write hwrite => ?_⟩
  · rw [mapLanes_eq_perform haxis hsize, hsize]
    exact build_eq_ok.mpr ⟨by rw [size_perform, Array.size_replicate], rfl⟩
  · have hlt := List.mem_range.mp (honce.mem_iff.mp (List.mem_map_of_mem hwrite))
    rw [Elements.get?_store, getElem?_perform (honce.nodup_iff.mpr List.nodup_range) hwrite
      (by rwa [Array.size_replicate]), Option.map_some]

end HybridGraph.Kernel
