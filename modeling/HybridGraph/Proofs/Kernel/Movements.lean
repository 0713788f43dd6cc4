import HybridGraph.Proofs.Kernel.Layout
import HybridGraph.Proofs.Kernel.Words
/-!
# Moved elements

A movement reads every element as a double and stores it again under the same element type.  What
it does to the coordinates and what it does to the elements are separate questions.  An element
stored again is *restored*, and restoring twice restores once, so movements that undo each other
restore the operand once, whatever lies between:

    Permuted perm x y → Permuted (inverse perm) y z → z = x.restored               (Permuted.undo)
    Padded pre post v x y → Padded (-pre) (-post) v' y z → z = x.restored            (Padded.undo)

Restoring changes no element except numbers that are no halves, under their element type, and
integers of 64 bits that a double cannot hold (`WellFormed.restored_eq_iff`).  Extents are sums of
machine integers, so padding is undone only where they and the number of elements stay small.
-/

namespace HybridGraph

/-! ## Elements stored again -/

/-- An element as a double. -/
def Element.double : Element → Float
  | .f32 value => Number.widen value
  | .f64 value => value
  | .i32 value => Number.ofInt value.toInt
  | .i64 value => Number.ofInt value.toInt
  | .bool value => Number.ofInt value.toNat

namespace DType

variable {dtype : DType} {e : Element}

/-- An element that has been read as a double and stored again. -/
def restored (dtype : DType) (e : Element) : Element := dtype.element e.double

/-- The elements that an element type gets back from their doubles. -/
inductive Keeps : DType → Element → Prop where
  | single (v : Float32) : Keeps .f32 (.f32 v)
  | half {v : Float32} (h : Number.roundToHalf v = v) : Keeps .f16 (.f32 v)
  | double (v : Float) : Keeps .f64 (.f64 v)
  | byte {v : Int32} (hlow : -128 ≤ v.toInt) (hhigh : v.toInt ≤ 127) : Keeps .i8 (.i32 v)
  | word (v : Int32) : Keeps .i32 (.i32 v)
  | long {v : Int64} (h : Number.Exact v.toInt ∨ v.toInt = 2 ^ 63 - 1) : Keeps .i64 (.i64 v)
  | truth {v : UInt8} (h : v = 0 ∨ v = 1) : Keeps .bool (.bool v)

theorem toInt_ofInt_truncate_long (x : Float) :
    (Int64.ofInt (Number.truncate 64 x)).toInt = Number.truncate 64 x := by
  obtain ⟨hlow, hhigh⟩ := truncate_bounds 64 x
  exact Int64.toInt_ofInt_of_le hlow hhigh

/-- What is stored for a number is kept. -/
theorem keeps_element (dtype : DType) (x : Float) : dtype.Keeps (dtype.element x) := by
  cases dtype with
  | f32 => exact .single _
  | f16 => exact .half (Number.roundToHalf_roundToHalf _)
  | f64 => exact .double x
  | i8 =>
    obtain ⟨hlow, hhigh⟩ := truncate_bounds 8 x
    refine .byte ?_ ?_ <;> rw [toInt_ofInt_truncate (by decide)]
    · exact hlow
    · exact Int.le_of_lt_add_one hhigh
  | i32 => exact .word _
  | i64 =>
    refine .long ?_
    rw [toInt_ofInt_truncate_long]
    exact Number.exact_truncate (by decide) x
  | bool =>
    refine .truth ?_
    split
    · exact .inl rfl
    · exact .inr rfl

theorem restored_of_keeps (h : dtype.Keeps e) : dtype.restored e = e := by
  cases h with
  | single v => exact congrArg Element.f32 (Number.narrow_widen v)
  | half h =>
    refine congrArg Element.f32 ?_
    rw [Element.double, Number.narrow_widen, h]
  | double v => rfl
  | @byte v hlow hhigh =>
    refine congrArg Element.i32 ?_
    rw [Element.double, Number.truncate_ofInt (by decide) hlow (Int.lt_add_one_of_le hhigh),
      Int32.ofInt_toInt]
  | word v =>
    refine congrArg Element.i32 ?_
    rw [Element.double, Number.truncate_ofInt (by decide) v.le_toInt v.toInt_lt, Int32.ofInt_toInt]
  | @long v h =>
    refine congrArg Element.i64 ?_
    rw [Element.double, (Number.truncate_ofInt_eq_self_iff v.le_toInt v.toInt_lt).mpr h,
      Int64.ofInt_toInt]
  | truth h => rcases h with rfl | rfl <;> rfl

/-- Restoring changes exactly what is not kept. -/
theorem restored_eq_self_iff : dtype.restored e = e ↔ dtype.Keeps e :=
  ⟨fun h => h ▸ keeps_element dtype _, restored_of_keeps⟩

/-- Restoring twice restores once. -/
theorem map_restored_restored (dtype : DType) (e : Option Element) :
    (e.map dtype.restored).map dtype.restored = e.map dtype.restored := by
  cases e with
  | none => rfl
  | some e => exact congrArg some (restored_of_keeps (keeps_element dtype e.double))

/-- What an element has to satisfy to come back from its double: no long integer has too many digits
(the largest one is safe), and no half has more digits than the 16-bit format. -/
structure Survives (dtype : DType) (e : Element) : Prop where
  long : ∀ v, e = .i64 v → Number.Exact v.toInt ∨ v.toInt = 2 ^ 63 - 1
  half : dtype = .f16 → ∀ v, e = .f32 v → Number.roundToHalf v = v

end DType

/-! ## Elements of tensors -/

theorem Elements.get?_eq_none {a : Elements} {i : ℕ} (h : a.size ≤ i) : a.get? i = none := by
  cases a <;> exact Option.map_eq_none_iff.mpr (Array.getElem?_eq_none h)

/-- Elements under one element type are known from their places. -/
theorem Elements.ext_get? {a b : Elements} {dtype : DType} (ha : a.fits dtype = true)
    (hb : b.fits dtype = true) (h : ∀ i, a.get? i = b.get? i) : a = b := by
  cases a <;> cases b <;> cases dtype <;> cases ha <;> cases hb
  all_goals
    refine congrArg _ (Array.ext_getElem? fun i => ?_)
    exact Option.map_injective (fun _ _ heq => by injection heq) (h i)

namespace Tensor

open Kernel (Within place)

variable {x y : Tensor} {coords : List ℕ} {e : Element}

/-- Every element restored. -/
def restored (x : Tensor) : Tensor := ⟨x.dtype, x.dims, store x.doubles x.dtype⟩

theorem getElem?_doubles (x : Tensor) (i : ℕ) :
    x.doubles[i]? = (x.data.get? i).map Element.double := by
  obtain ⟨dtype, dims, data⟩ := x
  cases data <;> simp [doubles, Elements.get?, Function.comp_def, Element.double]

theorem element?_store {dtype : DType} {dims : List ℕ} (values : Array Float) (coords : List ℕ) :
    (⟨dtype, dims, store values dtype⟩ : Tensor).element? coords =
      values[place dims coords]?.map dtype.element := Elements.get?_store ..

theorem element?_restored (x : Tensor) (coords : List ℕ) :
    x.restored.element? coords = (x.element? coords).map x.dtype.restored := by
  rw [restored, element?_store, getElem?_doubles, Option.map_map]
  rfl

/-- Well-formed tensors are known from their elements. -/
theorem WellFormed.ext (hx : x.WellFormed) (hy : y.WellFormed) (hdtype : y.dtype = x.dtype)
    (hdims : y.dims = x.dims)
    (h : ∀ coords, Within coords x.dims → y.element? coords = x.element? coords) : y = x := by
  obtain ⟨dtype, extents, data⟩ := x
  obtain ⟨dtype', extents', data'⟩ := y
  cases hdtype
  cases hdims
  refine congrArg _ (Elements.ext_get? hy.storage hx.storage fun i => ?_)
  by_cases hi : i < elementCount extents
  · obtain ⟨coords, hcoords, rfl⟩ := Kernel.exists_place_eq hi
    exact h coords hcoords
  · rw [Elements.get?_eq_none (hx.count.trans_le (Nat.le_of_not_lt hi)),
      Elements.get?_eq_none (hy.count.trans_le (Nat.le_of_not_lt hi))]

/-- The elements of a well-formed tensor are kept, except for some halves and some integers of 64
bits. -/
theorem WellFormed.keeps_iff (hx : x.WellFormed) (he : x.element? coords = some e) :
    x.dtype.Keeps e ↔ x.dtype.Survives e := by
  obtain ⟨dtype, extents, data⟩ := x
  have hstorage := hx.storage
  cases data with
  | f32 values =>
    obtain ⟨v, -, rfl⟩ := Option.map_eq_some_iff.mp he
    cases dtype <;> cases hstorage
    · exact iff_of_true (.single v) ⟨nofun, nofun⟩
    · constructor
      · intro hkeeps
        cases hkeeps with
        | half h => exact ⟨nofun, fun _ w hw => Element.f32.inj hw ▸ h⟩
      · exact fun h => .half (h.half rfl v rfl)
  | f64 values =>
    obtain ⟨v, -, rfl⟩ := Option.map_eq_some_iff.mp he
    cases dtype <;> cases hstorage
    exact iff_of_true (.double v) ⟨nofun, nofun⟩
  | i32 values =>
    obtain ⟨v, hv, rfl⟩ := Option.map_eq_some_iff.mp he
    refine iff_of_true ?_ ⟨nofun, fun _ => nofun⟩
    cases dtype <;> cases hstorage
    · obtain ⟨hlow, hhigh⟩ := hx.range rfl v (Array.mem_of_getElem? hv)
      exact .byte hlow hhigh
    · exact .word v
  | i64 values =>
    obtain ⟨v, -, rfl⟩ := Option.map_eq_some_iff.mp he
    cases dtype <;> cases hstorage
    constructor
    · intro hkeeps
      cases hkeeps with
      | long h => exact ⟨fun w hw => Element.i64.inj hw ▸ h, nofun⟩
    · exact fun h => .long (h.long v rfl)
  | bool values =>
    obtain ⟨v, hv, rfl⟩ := Option.map_eq_some_iff.mp he
    cases dtype <;> cases hstorage
    exact iff_of_true (.truth (hx.range v (Array.mem_of_getElem? hv))) ⟨nofun, nofun⟩

theorem WellFormed.restored (hx : x.WellFormed) : x.restored.WellFormed :=
  wellFormed_store hx.size_doubles

/-- A tensor is restored to itself if all its elements come back. -/
theorem WellFormed.restored_eq_iff (hx : x.WellFormed) : x.restored = x ↔
    ∀ coords e, x.element? coords = some e → x.dtype.Survives e := by
  constructor
  · intro h coords e he
    have hsame := element?_restored x coords
    rw [h, he] at hsame
    exact (hx.keeps_iff he).mp (DType.restored_eq_self_iff.mp (Option.some.inj hsame).symm)
  · intro h
    refine hx.ext hx.restored rfl rfl fun coords _ => ?_
    rw [element?_restored]
    cases he : x.element? coords with
    | none => rfl
    | some e =>
      exact congrArg some (DType.restored_of_keeps ((hx.keeps_iff he).mpr (h coords e he)))

end Tensor

namespace Kernel

open Tensor

variable {x y z : Tensor} {perm dims target coords : List ℕ} {pre post : List ℤ} {v v' : Float}

/-! ## Permuting -/

/-- The elements of `x`, restored, and each where the axes that are named put it. -/
structure Permuted (perm : List ℕ) (x y : Tensor) : Prop where
  dtype : y.dtype = x.dtype
  dims : y.dims = reorder perm x.dims
  element : ∀ target, Within target y.dims → ∃ coords, Within coords x.dims ∧
    target = reorder perm coords ∧ y.element? target = (x.element? coords).map x.dtype.restored

theorem exists_permute (hx : x.WellFormed) (hlength : perm.length = x.rank)
    (hperm : isPermutation perm = true) :
    ∃ y, permute x perm = .ok y ∧ y.WellFormed ∧ Permuted perm x y := by
  have hrank : x.dims.length = perm.length := hlength.symm
  have hextents := map_extentAt hperm hrank
  have hcount : x.doubles.size = elementCount (perm.map (extentAt x.dims)) :=
    hx.size_doubles.trans (elementCount_permuted hperm hrank).symm
  have hinside : ∀ i < x.doubles.size, dot (unravel (perm.map (extentAt x.dims)) i)
      (perm.map fun axis => (strides x.dims).getD axis 0) < x.doubles.size := fun i hi =>
    hx.size_doubles ▸ dot_permuted_lt hperm hrank (within_unravel (hcount ▸ hi))
  obtain ⟨out, hout, hsize, hread⟩ := exists_gather hinside
  refine ⟨⟨x.dtype, perm.map (extentAt x.dims), store out x.dtype⟩, ?_,
    wellFormed_store (hsize.trans hcount), rfl, hextents, fun target htarget => ?_⟩
  · unfold permute
    rw [if_neg (not_not.mpr hlength), if_neg (by simp [hperm])]
    show (gather x.doubles _ _ >>= _) = _
    rw [hout]
    exact build_eq_ok.mpr ⟨hsize.trans hcount, rfl⟩
  · have hlt : place (perm.map (extentAt x.dims)) target < x.doubles.size :=
      hcount ▸ place_lt htarget
    obtain ⟨coords, hcoords, rfl⟩ := exists_reorder_eq hperm hrank (hextents ▸ htarget)
    refine ⟨coords, hcoords, rfl, ?_⟩
    rw [element?_store, hread _ hlt, unravel_place htarget, dot_permuted hperm hrank hcoords,
      ← place_eq_dot hcoords.length_eq, getElem?_doubles, Option.map_map]
    rfl

theorem permute_isOk_iff (hx : x.WellFormed) :
    (∃ y, permute x perm = .ok y) ↔ perm.length = x.rank ∧ isPermutation perm = true := by
  constructor
  · rintro ⟨y, h⟩
    unfold permute at h
    split at h
    · cases h
    next hlength =>
    split at h
    · cases h
    next hperm => exact ⟨not_not.mp hlength, by simpa using hperm⟩
  · rintro ⟨hlength, hperm⟩
    obtain ⟨y, hy, -⟩ := exists_permute hx hlength hperm
    exact ⟨y, hy⟩

theorem permuted_of_permute (hx : x.WellFormed) (h : permute x perm = .ok y) :
    Permuted perm x y := by
  obtain ⟨hlength, hperm⟩ := (permute_isOk_iff hx).mp ⟨y, h⟩
  obtain ⟨y', hy', -, hpermuted⟩ := exists_permute hx hlength hperm
  exact Except.ok.inj (hy'.symm.trans h) ▸ hpermuted

/-- Permuting back restores. -/
theorem Permuted.undo (hx : x.WellFormed) (hz : z.WellFormed) (hlength : perm.length = x.rank)
    (hperm : isPermutation perm = true) (h : Permuted perm x y) (h' : Permuted (inverse perm) y z) :
    z = x.restored := by
  have hdims : z.dims = x.dims := by
    rw [h'.dims, h.dims, reorder_inverse_reorder hperm hlength.symm]
  refine hx.restored.ext hz (h'.dtype.trans h.dtype) hdims fun coords hcoords => ?_
  obtain ⟨target, htarget, rfl, hlast⟩ := h'.element coords (hdims ▸ hcoords)
  obtain ⟨source, hsource, rfl, hfirst⟩ := h.element target htarget
  have hback : reorder (inverse perm) (reorder perm source) = source :=
    reorder_inverse_reorder hperm (hsource.length_eq.trans hlength.symm)
  rw [hlast, hfirst, hback, element?_restored, h.dtype, DType.map_restored_restored]

theorem permute_inverse (hx : x.WellFormed) (hlength : perm.length = x.rank)
    (hperm : isPermutation perm = true) :
    (permute x perm >>= fun y => permute y (inverse perm)) = .ok x.restored := by
  obtain ⟨y, hpermute, hy, h⟩ := exists_permute hx hlength hperm
  have hrank : (inverse perm).length = y.rank := by
    rw [length_inverse, rank, h.dims, length_reorder]
  obtain ⟨z, hback, hz, h'⟩ := exists_permute hy hrank (isPermutation_inverse hperm)
  rw [hpermute]
  exact hback.trans (congrArg _ (h.undo hx hz hlength hperm h'))

/-! ## Padding -/

/-- The elements of `x`, restored, and each `pre` further; everything else is the filler. -/
structure Padded (pre post : List ℤ) (v : Float) (x y : Tensor) : Prop where
  dtype : y.dtype = x.dtype
  dims : Pads x.dims pre post y.dims
  inside : ∀ coords target, Within coords x.dims → Within target y.dims → Shifts pre coords target →
    y.element? target = (x.element? coords).map x.dtype.restored
  outside : ∀ target, Within target y.dims →
    (∀ coords, Within coords x.dims → ¬ Shifts pre coords target) →
      y.element? target = some (x.dtype.element v)

theorem Pads.length_eq (h : Pads dims pre post target) (hpre : pre.length = dims.length)
    (hpost : post.length = dims.length) : target.length = dims.length := by
  simpa [widened, hpre, hpost] using congrArg List.length h

theorem Pads.unique {target' : List ℕ} (h : Pads dims pre post target)
    (h' : Pads dims pre post target') : target = target' :=
  List.map_injective_iff.mpr Nat.cast_injective (h.trans h'.symm)

theorem word_elementCount (h : elementCount target < capacity) :
    word (elementCount target) = elementCount target :=
  Nat.mod_eq_of_lt (h.trans (by decide))

theorem exists_padValues {α : Type} {values : Array α} (hsize : values.size = elementCount dims)
    (hroom : elementCount target < capacity) (hpre : pre.length = dims.length)
    (htarget : target.length = dims.length) (filler : α) :
    ∃ out, padValues values dims target pre filler = .ok out ∧ out.size = elementCount target ∧
      ∀ position, Within position target →
        (∀ coords, Within coords dims → Shifts pre coords position →
          out[place target position]? = values[place dims coords]?) ∧
        ((∀ coords, Within coords dims → ¬ Shifts pre coords position) →
          out[place target position]? = some filler) := by
  have hlength (index : ℕ) : (unravel target index).length = dims.length :=
    (length_unravel target index).trans htarget
  obtain ⟨out, hout⟩ : ∃ out, padValues values dims target pre filler = .ok out := by
    refine exists_mapM_range fun index _ => ?_
    split
    · next source hsource =>
      have hlt := hsize ▸ paddedSource?_lt hpre (hlength index) hsource
      exact ⟨_, fetch_eq_ok.mpr (Array.getElem?_eq_getElem hlt)⟩
    · exact ⟨filler, rfl⟩
  obtain ⟨hcount, hread⟩ := mapM_range_eq_ok.mp hout
  rw [word_elementCount hroom] at hcount hread
  refine ⟨out, hout, hcount, fun position hposition => ?_⟩
  have hrank : position.length = dims.length := hposition.length_eq.trans htarget
  obtain ⟨a, ha, hplace⟩ := hread _ (place_lt hposition)
  rw [unravel_place hposition] at ha
  rw [hplace]
  constructor
  · intro coords hcoords hshift
    have hsource := (paddedSource?_eq_some hpre hrank).mpr ⟨coords, hcoords, hshift, rfl⟩
    rw [hsource, ← place_eq_dot hcoords.length_eq] at ha
    exact (fetch_eq_ok.mp ha).symm
  · intro houtside
    cases hsource : paddedSource? position dims (strides dims) pre with
    | some source =>
      obtain ⟨coords, hcoords, hshift, -⟩ := (paddedSource?_eq_some hpre hrank).mp hsource
      exact (houtside coords hcoords hshift).elim
    | none =>
      rw [hsource] at ha
      exact congrArg some (Except.ok.inj ha).symm

theorem exists_pad (hx : x.WellFormed) (hpre : pre.length = x.rank) (hpost : post.length = x.rank)
    (hpads : Pads x.dims pre post target) (hroom : elementCount target < capacity) (v : Float) :
    ∃ y, pad x pre post v = .ok y ∧ y.WellFormed ∧ Padded pre post v x y := by
  obtain ⟨out, hout, hsize, hread⟩ :=
    exists_padValues hx.size_doubles hroom hpre (hpads.length_eq hpre hpost) v
  refine ⟨⟨x.dtype, target, store out x.dtype⟩, ?_, wellFormed_store hsize, rfl, hpads, ?_, ?_⟩
  · have hneed : needRoom (word (elementCount target)) = .ok () := by
      rw [word_elementCount hroom]
      exact if_pos hroom
    unfold pad
    rw [if_neg (by simp [hpre, hpost]), (paddedExtents_eq_ok hpre hpost 0).mpr hpads]
    exact Outcome.bind_eq_ok.mpr ⟨_, rfl, Outcome.bind_eq_ok.mpr ⟨_, hneed,
      Outcome.bind_eq_ok.mpr ⟨_, hout, build_eq_ok.mpr ⟨hsize, rfl⟩⟩⟩⟩
  · intro coords position hcoords hposition hshift
    rw [element?_store, (hread position hposition).1 coords hcoords hshift, getElem?_doubles,
      Option.map_map]
    rfl
  · intro position hposition houtside
    rw [element?_store, (hread position hposition).2 houtside]
    rfl

theorem padded_of_pad (hx : x.WellFormed) (h : pad x pre post v = .ok y)
    (hroom : elementCount y.dims < capacity) : Padded pre post v x y := by
  have hpad := h
  unfold pad at h
  split at h
  · cases h
  next hlength =>
  obtain ⟨hpre, hpost⟩ := not_or.mp hlength
  rw [not_not] at hpre hpost
  obtain ⟨target, htarget, h⟩ := Outcome.bind_eq_ok.mp h
  obtain ⟨_, -, h⟩ := Outcome.bind_eq_ok.mp h
  obtain ⟨out, -, h⟩ := Outcome.bind_eq_ok.mp h
  obtain rfl : y.dims = target := by
    obtain ⟨-, rfl⟩ := build_eq_ok.mp h
    rfl
  obtain ⟨y', hy', -, hpadded⟩ :=
    exists_pad hx hpre hpost ((paddedExtents_eq_ok hpre hpost 0).mp htarget) hroom v
  exact Except.ok.inj (hy'.symm.trans hpad) ▸ hpadded

/-! ## Cropping what was padded -/

theorem Shifts.neg (h : Shifts pre coords target) (hpre : pre.length = coords.length) :
    Shifts (pre.map (-·)) target coords := by
  induction coords generalizing pre target with
  | nil =>
    obtain rfl := List.length_eq_zero_iff.mp hpre
    obtain rfl := List.map_eq_nil_iff.mp h
    rfl
  | cons coord coords ih =>
    obtain ⟨before, pre, rfl⟩ := List.exists_cons_of_length_eq_add_one hpre
    obtain ⟨position, target, rfl, -⟩ := List.map_eq_cons_iff.mp h
    obtain ⟨hposition, hrest⟩ := shifts_cons.mp h
    exact shifts_cons.mpr ⟨by dsimp only; omega, ih hrest (Nat.succ.inj hpre)⟩

/-- Extents that are small enough to be what they are as machine integers. -/
theorem pads_of_widened (hwide : target.map Nat.cast = widened dims pre post)
    (hsmall : ∀ extent ∈ target, extent < 2 ^ 63) : Pads dims pre post target := by
  unfold Pads
  rw [← hwide, List.map_map]
  refine List.map_congr_left fun extent hextent => ?_
  have hlt := hsmall extent hextent
  rw [Function.comp_apply, signed_of_lt (by omega) (by omega)]

/-- The amounts taken off again leave the extents from before. -/
theorem pads_neg_of_widened (hwide : target.map Nat.cast = widened dims pre post)
    (hsmall : ∀ extent ∈ target, extent < 2 ^ 63) (hpre : pre.length = dims.length)
    (hpost : post.length = dims.length) (hfront : ∀ before ∈ pre, 0 ≤ before)
    (hback : ∀ after ∈ post, 0 ≤ after) :
    Pads target (pre.map (-·)) (post.map (-·)) dims := by
  induction dims generalizing pre post target with
  | nil =>
    obtain rfl := List.length_eq_zero_iff.mp hpre
    obtain rfl := List.length_eq_zero_iff.mp hpost
    obtain rfl := List.map_eq_nil_iff.mp hwide
    rfl
  | cons extent dims ih =>
    obtain ⟨before, pre, rfl⟩ := List.exists_cons_of_length_eq_add_one hpre
    obtain ⟨after, post, rfl⟩ := List.exists_cons_of_length_eq_add_one hpost
    obtain ⟨wide, target, rfl, hextent, hrest⟩ := List.map_eq_cons_iff.mp hwide
    obtain ⟨hlt, hsmall⟩ := List.forall_mem_cons.mp hsmall
    obtain ⟨hbefore, hfront⟩ := List.forall_mem_cons.mp hfront
    obtain ⟨hafter, hback⟩ := List.forall_mem_cons.mp hback
    refine pads_cons.mpr
      ⟨?_, ih hrest hsmall (Nat.succ.inj hpre) (Nat.succ.inj hpost) hfront hback⟩
    dsimp only at hextent ⊢
    rw [signed_of_lt (by omega) (by omega)]
    omega

theorem elementCount_le_of_widened (hwide : target.map Nat.cast = widened dims pre post)
    (hpre : pre.length = dims.length) (hpost : post.length = dims.length)
    (hfront : ∀ before ∈ pre, 0 ≤ before) (hback : ∀ after ∈ post, 0 ≤ after) :
    elementCount dims ≤ elementCount target := by
  induction dims generalizing pre post target with
  | nil =>
    obtain rfl := List.length_eq_zero_iff.mp hpre
    obtain rfl := List.map_eq_nil_iff.mp hwide
    exact Nat.le_refl _
  | cons extent dims ih =>
    obtain ⟨before, pre, rfl⟩ := List.exists_cons_of_length_eq_add_one hpre
    obtain ⟨after, post, rfl⟩ := List.exists_cons_of_length_eq_add_one hpost
    obtain ⟨wide, target, rfl, hextent, hrest⟩ := List.map_eq_cons_iff.mp hwide
    obtain ⟨hbefore, hfront⟩ := List.forall_mem_cons.mp hfront
    obtain ⟨hafter, hback⟩ := List.forall_mem_cons.mp hback
    dsimp only at hextent
    rw [elementCount_cons, elementCount_cons]
    exact Nat.mul_le_mul (by omega)
      (ih hrest (Nat.succ.inj hpre) (Nat.succ.inj hpost) hfront hback)

/-- Where nothing is cropped, every element has a place. -/
theorem exists_shifts (hwide : target.map Nat.cast = widened dims pre post)
    (hpre : pre.length = dims.length)
    (hpost : post.length = dims.length) (hfront : ∀ before ∈ pre, 0 ≤ before)
    (hback : ∀ after ∈ post, 0 ≤ after) (hcoords : Within coords dims) :
    ∃ position, Within position target ∧ Shifts pre coords position := by
  induction hcoords generalizing pre post target with
  | nil =>
    obtain rfl := List.length_eq_zero_iff.mp hpre
    obtain rfl := List.map_eq_nil_iff.mp hwide
    exact ⟨[], .nil, rfl⟩
  | @cons coord extent coords dims hcoord hcoords ih =>
    obtain ⟨before, pre, rfl⟩ := List.exists_cons_of_length_eq_add_one hpre
    obtain ⟨after, post, rfl⟩ := List.exists_cons_of_length_eq_add_one hpost
    obtain ⟨wide, target, rfl, hextent, hrest⟩ := List.map_eq_cons_iff.mp hwide
    obtain ⟨hbefore, hfront⟩ := List.forall_mem_cons.mp hfront
    obtain ⟨hafter, hback⟩ := List.forall_mem_cons.mp hback
    dsimp only at hextent
    obtain ⟨position, hposition, hshift⟩ :=
      ih hrest (Nat.succ.inj hpre) (Nat.succ.inj hpost) hfront hback
    refine ⟨(coord + before).toNat :: position, .cons (by omega) hposition, ?_⟩
    exact shifts_cons.mpr ⟨by omega, hshift⟩

section

variable (hx : x.WellFormed) (hpre : pre.length = x.rank) (hpost : post.length = x.rank)
  (hfront : ∀ before ∈ pre, 0 ≤ before) (hback : ∀ after ∈ post, 0 ≤ after)

include hx hpre hpost hfront hback

/-- Cropping what was padded restores: nothing that was filled in stays. -/
theorem Padded.undo (hwide : y.dims.map Nat.cast = widened x.dims pre post)
    (hsmall : ∀ extent ∈ y.dims, extent < 2 ^ 63) (hz : z.WellFormed)
    (h : Padded pre post v x y) (h' : Padded (pre.map (-·)) (post.map (-·)) v' y z) :
    z = x.restored := by
  have hdims : z.dims = x.dims :=
    h'.dims.unique (pads_neg_of_widened hwide hsmall hpre hpost hfront hback)
  refine hx.restored.ext hz (h'.dtype.trans h.dtype) hdims fun coords hcoords => ?_
  obtain ⟨target, htarget, hshift⟩ := exists_shifts hwide hpre hpost hfront hback hcoords
  have hreturn := hshift.neg (hpre.trans hcoords.length_eq.symm)
  rw [h'.inside target coords htarget (hdims ▸ hcoords) hreturn,
    h.inside coords target hcoords htarget hshift, element?_restored, h.dtype,
    DType.map_restored_restored]

theorem pad_crop (hwide : target.map Nat.cast = widened x.dims pre post)
    (hsmall : ∀ extent ∈ target, extent < 2 ^ 63) (hroom : elementCount target < capacity)
    (v v' : Float) :
    (pad x pre post v >>= fun y => pad y (pre.map (-·)) (post.map (-·)) v') = .ok x.restored := by
  have hpads := pads_of_widened hwide hsmall
  obtain ⟨y, hpad, hy, h⟩ := exists_pad hx hpre hpost hpads hroom v
  obtain rfl := h.dims.unique hpads
  have hrank : y.rank = x.rank := h.dims.length_eq hpre hpost
  have hstored : elementCount x.dims < capacity :=
    (elementCount_le_of_widened hwide hpre hpost hfront hback).trans_lt hroom
  obtain ⟨z, hcrop, hz, h'⟩ := exists_pad hy (by simp [hpre, hrank]) (by simp [hpost, hrank])
    (pads_neg_of_widened hwide hsmall hpre hpost hfront hback) hstored v'
  rw [hpad]
  exact hcrop.trans (congrArg _ (h.undo hx hpre hpost hfront hback hwide hsmall hz h'))

end

/-! ## All movements -/

theorem reshape_eq_ok : reshape x dims = .ok y ↔
    elementCount dims = x.size ∧ ⟨x.dtype, dims, x.data⟩ = y := by
  unfold reshape Tensor.reshape
  rw [Outcome.mapError_eq_ok]
  split
  · next hcount => simp [hcount]
  · next hcount => simp [hcount]

/-- A movement takes every element to its place and restores it, or keeps it as it is.  Movements
that undo each other restore the operand, where the padded one can be held by an array.  That
changes nothing but halves with too many digits, and integers of 64 bits that no double holds; of
these the largest one is safe. -/
theorem movement_restores (hx : x.WellFormed) :
    (∀ perm y, permute x perm = .ok y → Permuted perm x y) ∧
    (∀ pre post v y, pad x pre post v = .ok y → elementCount y.dims < capacity →
      Padded pre post v x y) ∧
    (∀ dims y, reshape x dims = .ok y → y = ⟨x.dtype, dims, x.data⟩) ∧
    (∀ perm, perm.length = x.rank → isPermutation perm = true →
      (permute x perm >>= fun y => permute y (inverse perm)) = .ok x.restored) ∧
    (∀ pre post target v v', pre.length = x.rank → post.length = x.rank →
      (∀ before ∈ pre, 0 ≤ before) → (∀ after ∈ post, 0 ≤ after) →
      target.map Nat.cast = widened x.dims pre post → (∀ extent ∈ target, extent < 2 ^ 63) →
      elementCount target < capacity → (pad x pre post v >>= fun y =>
        pad y (pre.map (-·)) (post.map (-·)) v') = .ok x.restored) ∧
    (∀ coords e, x.element? coords = some e → (x.dtype.restored e = e ↔ x.dtype.Survives e)) ∧
    (x.restored = x ↔ ∀ coords e, x.element? coords = some e → x.dtype.Survives e) := by
  refine ⟨fun perm y => permuted_of_permute hx, fun pre post v y => padded_of_pad hx,
    fun dims y h => (reshape_eq_ok.mp h).2.symm, fun perm => permute_inverse hx, ?_,
    fun coords e he => DType.restored_eq_self_iff.trans (hx.keeps_iff he), hx.restored_eq_iff⟩
  intro pre post target v v' hpre hpost hfront hback hwide hsmall hroom
  exact pad_crop hx hpre hpost hfront hback hwide hsmall hroom v v'

theorem movement_restores_pair :
    let x : Tensor := ⟨.i64, [1, 2], .i64 #[3, -5]⟩
    x.WellFormed ∧
      (permute x [1, 0] >>= fun y => permute y (inverse [1, 0])) = .ok x ∧
      (pad x [0, 1] [2, 0] 7.0 >>= fun y => pad y [0, -1] [-2, 0] 0.0) = .ok x := by
  intro x
  have hx : x.WellFormed := ⟨rfl, rfl, trivial⟩
  obtain ⟨-, -, -, hpermute, hpad, -, hrestored⟩ := movement_restores hx
  have hsame : x.restored = x := by
    refine hrestored.mpr fun coords e he => ⟨fun n hn => .inl (.of_le ?_), nofun⟩
    obtain ⟨value, hvalue, heq⟩ := Option.map_eq_some_iff.mp he
    obtain rfl : value = n := Element.i64.inj (heq.trans hn)
    have hmem := Array.mem_of_getElem? hvalue
    simp only [List.mem_toArray, List.mem_cons, List.not_mem_nil, or_false] at hmem
    rcases hmem with rfl | rfl <;> decide
  rw [hsame] at hpermute hpad
  exact ⟨hx, hpermute [1, 0] rfl (by decide),
    hpad [0, 1] [2, 0] [3, 3] 7.0 0.0 rfl rfl (by decide) (by decide) rfl (by decide) (by decide)⟩

/-- The only element of a tensor stays where it is, restored. -/
theorem exists_permute_single (hx : x.WellFormed) (hdims : x.dims = [1]) :
    ∃ y, permute x [0] = .ok y ∧ y.element? [0] = (x.element? [0]).map x.dtype.restored := by
  have hlength : [0].length = x.rank := by rw [rank, hdims]; rfl
  obtain ⟨y, hy, -, hpermuted⟩ := exists_permute hx hlength (by decide)
  have htarget : Within [0] y.dims := by
    rw [hpermuted.dims, hdims]
    exact .cons Nat.zero_lt_one .nil
  obtain ⟨coords, hcoords, -, helement⟩ := hpermuted.element [0] htarget
  rw [hdims] at hcoords
  obtain _ | ⟨hcoord, _ | _⟩ := hcoords
  obtain rfl := Nat.lt_one_iff.mp hcoord
  exact ⟨y, hy, helement⟩

/-- Two elements and twice the largest amount are no elements, and cropping makes up two others. -/
theorem exists_pad_wrapping (a b c : Float) : ∃ y z,
    pad ⟨.f64, [2], .f64 #[a, b]⟩ [2 ^ 63 - 1] [2 ^ 63 - 1] c = .ok y ∧
      pad y [-(2 ^ 63 - 1)] [-(2 ^ 63 - 1)] c = .ok z ∧ z.element? [0] = some (.f64 c) := by
  have hx : Tensor.WellFormed ⟨.f64, [2], .f64 #[a, b]⟩ := ⟨rfl, rfl, trivial⟩
  have hempty : Pads [2] [2 ^ 63 - 1] [2 ^ 63 - 1] [0] := rfl
  have hback : Pads [0] [-(2 ^ 63 - 1)] [-(2 ^ 63 - 1)] [2] := rfl
  obtain ⟨y, hpad, hy, hpadded⟩ := exists_pad hx rfl rfl hempty (by decide) c
  have hdims : y.dims = [0] := hpadded.dims.unique hempty
  have hlength : [-(2 ^ 63 - 1 : ℤ)].length = y.rank := by rw [rank, hdims]; rfl
  obtain ⟨z, hcrop, -, hcropped⟩ :=
    exists_pad hy hlength hlength (hdims.symm ▸ hback) (by decide) c
  have hwide : z.dims = [2] := hcropped.dims.unique (hdims.symm ▸ hback)
  refine ⟨y, z, hpad, hcrop, ?_⟩
  rw [hcropped.outside [0] (hwide ▸ .cons Nat.zero_lt_two .nil), hpadded.dtype]
  · rfl
  · intro coords hcoords
    rw [hdims] at hcoords
    obtain _ | ⟨hcoord, _⟩ := hcoords
    cases hcoord

/-- What movements alter: the first integer that no double holds comes back one smaller, a number
that is no half comes back rounded, extents that no signed integer holds wrap, and more elements
than an array can hold are refused. -/
theorem movement_alters :
    let long : Tensor := ⟨.i64, [1], .i64 #[9007199254740993]⟩
    let third : Tensor := ⟨.f16, [1], .f32 #[.ofBits 0x3EAAAAAB]⟩
    let pair : Tensor := ⟨.f64, [2], .f64 #[1.0, 2.0]⟩
    let empty : Tensor := ⟨.f32, [0], .f32 #[]⟩
    (long.WellFormed ∧ ∃ y, permute long [0] = .ok y ∧ y.element? [0] ≠ long.element? [0]) ∧
    (third.WellFormed ∧ ∃ y, permute third [0] = .ok y ∧ y.element? [0] ≠ third.element? [0]) ∧
    (pair.WellFormed ∧ ∃ y z, pad pair [2 ^ 63 - 1] [2 ^ 63 - 1] 0.0 = .ok y ∧
      pad y [-(2 ^ 63 - 1)] [-(2 ^ 63 - 1)] 0.0 = .ok z ∧ z.element? [0] ≠ pair.element? [0]) ∧
    empty.WellFormed ∧ pad empty [2 ^ 61] [0] 0.0 = .error (.noRoom (2 ^ 61)) := by
  intro long third pair empty
  refine ⟨?_, ?_, ?_, ⟨rfl, rfl, trivial⟩, rfl⟩
  · have hlong : long.WellFormed := ⟨rfl, rfl, trivial⟩
    obtain ⟨y, hy, helement⟩ := exists_permute_single hlong rfl
    refine ⟨hlong, y, hy, fun hsame => ?_⟩
    have hword : Number.truncate 64 (Number.ofInt 9007199254740993) ≠ 9007199254740993 := by
      decide +kernel
    have hmoved := Element.i64.inj (Option.some.inj (helement.symm.trans hsame))
    refine hword ?_
    rw [← DType.toInt_ofInt_truncate_long]
    exact congrArg Int64.toInt hmoved
  · have hthird : third.WellFormed := ⟨rfl, rfl, trivial⟩
    obtain ⟨y, hy, helement⟩ := exists_permute_single hthird rfl
    refine ⟨hthird, y, hy, fun hsame => ?_⟩
    have hround : Number.roundToHalf (Float32.ofBits 0x3EAAAAAB) ≠ Float32.ofBits 0x3EAAAAAB := by
      decide +kernel
    have hmoved := Element.f32.inj (Option.some.inj (helement.symm.trans hsame))
    refine hround ?_
    rwa [Element.double, Number.narrow_widen] at hmoved
  · obtain ⟨y, z, hpad, hcrop, helement⟩ := exists_pad_wrapping 1.0 2.0 0.0
    refine ⟨⟨rfl, rfl, trivial⟩, y, z, hpad, hcrop, fun hsame => ?_⟩
    have hzero : (0.0 : Float) ≠ 1.0 := by decide +kernel
    exact hzero (Element.f64.inj (Option.some.inj (helement.symm.trans hsame)))

end Kernel

end HybridGraph
