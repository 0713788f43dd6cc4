import HybridGraph.Proofs.Engine.Inferred
import HybridGraph.Proofs.Kernel.Words
/-!
# Element by element

A binary operation reads its operands broadcast to one shape and stores what a function makes of
their elements.  Two functions with the same words on the elements have the same result, an operand
may be stored before it is read, and unit axes in front of it change nothing:

    (∀ a b, dtype.word (f a b) = dtype.word (g a b)) →
      binary t u dtype f = .ok y → binary t u dtype g = .ok y                       (binary_congr)
    binary t u dtype (fun a b => f a (dtype.rounded (h b))) = .ok y →
      binary t ⟨dtype, padded t.rank u.dims, store (u.doubles.map h) dtype⟩ dtype f = .ok y
                                                                                    (binary_store)
-/

namespace HybridGraph

/-- Elements are kept in order by the type of their tensor. -/
theorem Tensor.orders_of_mem {t : Tensor} (hdtype : t.dtype ∈ [DType.i8, .i32, .bool])
    (ht : t.WellFormed) {x : Float} (hx : x ∈ t.doubles) : t.dtype.Orders x := by
  obtain ⟨dtype, dims, data⟩ := t
  have hfits := ht.storage
  have hrange := ht.range
  have hword {values : Array Int32} (hx : x ∈ values.map fun n => Number.ofInt n.toInt) :
      x.isNaN = false := by
    obtain ⟨n, -, rfl⟩ := Array.mem_map.mp hx
    have hlow := n.le_toInt
    have hhigh := n.toInt_lt
    exact Number.isNaN_ofInt (by omega)
  cases data with
  | i32 values =>
    refine ⟨hword hx, ?_⟩
    rintro rfl
    cases hfits
  | bool values =>
    have hbit : x = Number.ofInt 0 ∨ x = Number.ofInt 1 := by
      obtain ⟨bit, hbit, rfl⟩ := Array.mem_map.mp hx
      exact (hrange bit hbit).imp (fun h => by rw [h]; rfl) fun h => by rw [h]; rfl
    rcases hbit with rfl | rfl
    · exact ⟨rfl, fun _ => by decide⟩
    · exact ⟨rfl, fun _ => by decide⟩
  | _ => fin_cases hdtype <;> cases hfits

/-- A tensor of one number holds it rounded. -/
theorem Tensor.eq_of_mem_full {dtype : DType} {dims : List ℕ} {x y : Float}
    (h : y ∈ (full dtype dims x).doubles) : y = dtype.rounded x := by
  rw [full, doubles_store] at h
  obtain ⟨z, hz, rfl⟩ := Array.mem_map.mp h
  rw [Array.eq_of_mem_replicate hz]

namespace Kernel

open Tensor

variable {α β : Type} {dtype : DType} {t u y : Tensor} {f g : Float → Float → Float}

/-! ## Broadcast elements -/

theorem fetch_eq_ok {values : Array α} {index : ℕ} {x : α} :
    fetch values index = .ok x ↔ values[index]? = some x := by
  unfold fetch
  split <;> simp_all

theorem gather_eq_ok {values out : Array α} {count : ℕ} {source : ℕ → ℕ} :
    gather values count source = .ok out ↔
      List.Forall₂ (fun index x => values[source index]? = some x) (List.range count)
        out.toList := by
  unfold gather
  rw [Array.mapM_eq_mapM_toList, Array.toList_range]
  have hlist : ∀ r : Except KernelError (List α),
      List.toArray <$> r = .ok out ↔ r = .ok out.toList := by
    rintro (e | xs)
    · exact iff_of_false nofun nofun
    · show Except.ok xs.toArray = .ok out ↔ Except.ok xs = .ok out.toList
      rw [Except.ok.injEq, Except.ok.injEq, ← Array.toList_inj]
  rw [hlist, Outcome.mapM_eq_ok]
  simp only [fetch_eq_ok]

theorem mem_of_broadcastValues {values out : Array α} {dims target : List ℕ} {x : α}
    (h : broadcastValues values dims target = .ok out) (hx : x ∈ out) : x ∈ values := by
  unfold broadcastValues at h
  split at h
  · obtain rfl := Except.ok.inj h
    exact hx
  · obtain ⟨index, -, hindex⟩ :=
      Outcome.exists_of_forall₂ (gather_eq_ok.mp h).flip (Array.mem_toList_iff.mpr hx)
    exact Array.mem_of_getElem? hindex

theorem broadcastValues_map {values out : Array α} {dims target : List ℕ} (h : α → β)
    (hout : broadcastValues values dims target = .ok out) :
    broadcastValues (values.map h) dims target = .ok (out.map h) := by
  unfold broadcastValues at hout ⊢
  split at hout
  · next hsame =>
    obtain rfl := Except.ok.inj hout
    exact if_pos hsame
  · next hother =>
    rw [if_neg hother]
    refine gather_eq_ok.mpr ?_
    rw [Array.toList_map, List.forall₂_map_right_iff]
    refine (gather_eq_ok.mp hout).imp fun index x hx => ?_
    rw [Array.getElem?_map, hx]
    rfl

theorem binary_eq_ok_iff : binary t u dtype f = .ok y ↔ ∃ dims a b,
    broadcastShape t.dims u.dims = .ok dims ∧ broadcastValues t.doubles t.dims dims = .ok a ∧
      broadcastValues u.doubles u.dims dims = .ok b ∧
        build dtype dims (Array.zipWith f a b) = .ok y := by
  unfold binary
  simp only [Outcome.bind_eq_ok]
  constructor
  · rintro ⟨dims, hdims, a, ha, b, hb, hy⟩
    exact ⟨dims, a, b, hdims, ha, hb, hy⟩
  · rintro ⟨dims, a, b, hdims, ha, hb, hy⟩
    exact ⟨dims, hdims, a, ha, b, hb, hy⟩

/-- What is stored for numbers goes by their words. -/
theorem store_congr (hdtype : dtype ∈ [DType.i8, .i32, .bool]) {xs ys : Array Float}
    (h : xs.map dtype.word = ys.map dtype.word) : store xs dtype = store ys dtype := by
  fin_cases hdtype
  · have hmap := congrArg (Array.map Int32.ofInt) h
    rw [Array.map_map, Array.map_map] at hmap
    exact congrArg Elements.i32 hmap
  · have hmap := congrArg (Array.map Int32.ofInt) h
    rw [Array.map_map, Array.map_map] at hmap
    exact congrArg Elements.i32 hmap
  · have hbit : ∀ x : Float, (if x == 0.0 then 0 else 1 : UInt8) =
        if DType.bool.word x = 0 then 0 else 1 := fun x => by
      unfold DType.word
      split <;> simp_all
    have hmap := congrArg (Array.map fun n : ℤ => (if n = 0 then 0 else 1 : UInt8)) h
    rw [Array.map_map, Array.map_map] at hmap
    show Elements.bool (xs.map fun x => if x == 0.0 then 0 else 1) =
      .bool (ys.map fun x => if x == 0.0 then 0 else 1)
    simp only [hbit]
    exact congrArg Elements.bool hmap

theorem store_map_congr (hdtype : dtype ∈ [DType.i8, .i32, .bool]) {xs : Array α} {f g : α → Float}
    (h : ∀ a ∈ xs, dtype.word (f a) = dtype.word (g a)) :
    store (xs.map f) dtype = store (xs.map g) dtype := by
  refine store_congr hdtype (Array.ext (by simp) fun i hi hi' => ?_)
  simp only [Array.getElem_map]
  exact h _ (Array.getElem_mem _)

theorem build_congr (hdtype : dtype ∈ [DType.i8, .i32, .bool]) {dims : List ℕ} {xs ys : Array Float}
    (h : xs.map dtype.word = ys.map dtype.word) : build dtype dims xs = build dtype dims ys := by
  unfold build ofDoubles
  rw [store_congr hdtype h]

/-- Functions with the same words on the elements have the same result. -/
theorem binary_congr (hdtype : dtype ∈ [DType.i8, .i32, .bool])
    (h : ∀ a ∈ t.doubles, ∀ b ∈ u.doubles, dtype.word (f a b) = dtype.word (g a b))
    (hy : binary t u dtype f = .ok y) : binary t u dtype g = .ok y := by
  obtain ⟨dims, as, bs, hdims, has, hbs, hy⟩ := binary_eq_ok_iff.mp hy
  refine binary_eq_ok_iff.mpr ⟨dims, as, bs, hdims, has, hbs, ?_⟩
  rw [← hy]
  refine build_congr hdtype (Array.ext (by simp) fun i hi hi' => ?_)
  simp only [Array.getElem_map, Array.getElem_zipWith]
  exact (h _ (mem_of_broadcastValues has (Array.getElem_mem _)) _
    (mem_of_broadcastValues hbs (Array.getElem_mem _))).symm

/-! ## Unit axes -/

/-- Extents with unit axes in front, up to a rank. -/
def padded (rank : ℕ) (dims : List ℕ) : List ℕ := List.replicate (rank - dims.length) 1 ++ dims

theorem length_padded (rank : ℕ) (dims : List ℕ) :
    (padded rank dims).length = max rank dims.length := by
  rw [padded, List.length_append, List.length_replicate]
  omega

theorem padded_self (dims : List ℕ) : padded dims.length dims = dims := by
  rw [padded, Nat.sub_self]
  rfl

theorem elementCount_units (rank : ℕ) : elementCount (List.replicate rank 1) = 1 := by
  rw [Inference.elementCount_eq_prod, List.prod_replicate, one_pow]

theorem elementCount_padded (rank : ℕ) (dims : List ℕ) :
    elementCount (padded rank dims) = elementCount dims := by
  rw [Inference.elementCount_eq_prod, Inference.elementCount_eq_prod]
  simp [padded]

theorem extentFromEnd_padded (rank : ℕ) (dims : List ℕ) (fromEnd : ℕ) :
    extentFromEnd (padded rank dims) fromEnd = extentFromEnd dims fromEnd := by
  unfold extentFromEnd padded
  rw [List.length_append, List.length_replicate]
  by_cases hlt : fromEnd < dims.length
  · rw [if_pos (by omega), if_pos hlt, List.getD_append_right _ _ _ _ (by simp; omega)]
    congr 1
    simp
    omega
  · rw [if_neg hlt]
    split
    · rw [List.getD_append _ _ _ _ (by simp; omega), List.getD_eq_getElem _ _ (by simp; omega)]
      simp
    · rfl

/-- Unit axes in front do not change what an operand broadcasts to. -/
theorem broadcastShape_padded {dims other target : List ℕ}
    (h : broadcastShape dims other = .ok target) :
    broadcastShape dims (padded dims.length other) = .ok target := by
  have hrank : max dims.length (padded dims.length other).length =
      max dims.length other.length := by
    rw [length_padded]
    omega
  unfold broadcastShape at h ⊢
  simp only [hrank, extentFromEnd_padded] at h ⊢
  refine Outcome.mapM_eq_ok.mpr ((Outcome.mapM_eq_ok.mp h).imp fun axis extent h => ?_)
  split_ifs at h ⊢ <;> exact h

theorem broadcastShape_units (dims : List ℕ) (rank : ℕ) :
    broadcastShape dims (List.replicate rank 1) = .ok (padded rank dims) := by
  have hunit : ∀ fromEnd, extentFromEnd (List.replicate rank 1) fromEnd = 1 := fun fromEnd => by
    unfold extentFromEnd
    split <;> simp
  have hself := broadcastShape_self (padded rank dims)
  unfold broadcastShape at hself ⊢
  simp only [length_padded, Nat.max_comm rank, Nat.max_self, if_true, List.length_replicate,
    extentFromEnd_padded, hunit] at hself ⊢
  rw [← hself]
  congr 1
  funext axis
  split
  · next h => rw [h]
  · rfl

theorem strides_units (count : ℕ) (dims : List ℕ) :
    strides (List.replicate count 1 ++ dims) =
      List.replicate count (elementCount dims) ++ strides dims := by
  induction count with
  | zero => rfl
  | succ count ih =>
    have hsame : elementCount (List.replicate count 1 ++ dims) = elementCount dims := by
      rw [Inference.elementCount_eq_prod, Inference.elementCount_eq_prod]
      simp
    rw [List.replicate_succ, List.replicate_succ, List.cons_append, List.cons_append, strides, ih,
      hsame]

/-- Unit axes do not move. -/
theorem broadcastStrides_padded {rank result : ℕ} {dims : List ℕ}
    (h : max rank dims.length ≤ result) :
    broadcastStrides (padded rank dims) result = broadcastStrides dims result := by
  have hstill : List.zipWith (fun extent stride => if extent = 1 then 0 else stride)
      (List.replicate (rank - dims.length) 1)
      (List.replicate (rank - dims.length) (elementCount dims)) =
      List.replicate (rank - dims.length) 0 := by
    rw [List.zipWith_replicate, if_pos rfl, Nat.min_self]
  unfold broadcastStrides
  rw [length_padded, padded, strides_units, List.zipWith_append (by simp), hstill,
    ← List.append_assoc, List.replicate_append_replicate]
  congr 2
  omega

theorem dot_cons (coord step : ℕ) (coords steps : List ℕ) :
    dot (coord :: coords) (step :: steps) = coord * step + dot coords steps := by
  rw [dot, dot, ← List.sum_eq_foldl, ← List.sum_eq_foldl]
  rfl

/-- Coordinates lead back to where they came from. -/
theorem dot_unravel (dims : List ℕ) (index : ℕ) :
    dot (unravel dims index)
        (List.zipWith (fun extent stride => if extent = 1 then 0 else stride) dims (strides dims)) =
      index % elementCount dims := by
  induction dims with
  | nil => exact (Nat.mod_one index).symm
  | cons extent dims ih =>
    have hcount : elementCount (extent :: dims) = elementCount dims * extent := by
      rw [Inference.elementCount_eq_prod, Inference.elementCount_eq_prod, List.prod_cons, mul_comm]
    show dot (index / elementCount dims % extent :: unravel dims index)
      ((if extent = 1 then 0 else elementCount dims) :: _) = _
    rw [dot_cons, ih, hcount, Nat.mod_mul]
    by_cases hone : extent = 1
    · rw [if_pos hone, hone, Nat.mod_one]
      omega
    · rw [if_neg hone, Nat.mul_comm]
      omega

/-- Elements that are read in their own order stay as they are. -/
theorem gather_self {values : Array α} {dims : List ℕ} (hsize : values.size = elementCount dims) :
    gather values (elementCount dims)
      (fun index => dot (unravel dims index) (broadcastStrides dims dims.length)) = .ok values := by
  have hsteps : broadcastStrides dims dims.length =
      List.zipWith (fun extent stride => if extent = 1 then 0 else stride) dims (strides dims) := by
    unfold broadcastStrides
    rw [Nat.sub_self]
    rfl
  refine gather_eq_ok.mpr ?_
  simp only [hsteps, dot_unravel]
  rw [List.forall₂_iff_get]
  refine ⟨by simp [hsize], fun i hi hi' => ?_⟩
  have hlt : i < elementCount dims := by simpa using hi
  simp [Nat.mod_eq_of_lt hlt]

/-- Unit axes in front do not change what is read. -/
theorem broadcastValues_padded {values : Array α} {rank : ℕ} {dims target : List ℕ}
    (hsize : values.size = elementCount dims) (hrank : max rank dims.length ≤ target.length) :
    broadcastValues values (padded rank dims) target = broadcastValues values dims target := by
  have hsteps := broadcastStrides_padded hrank
  unfold broadcastValues
  rw [hsteps]
  by_cases htarget : dims = target
  · -- there is no room for unit axes
    have hnone : rank - dims.length = 0 := by
      rw [htarget] at hrank ⊢
      omega
    rw [padded, hnone]
    rfl
  rw [if_neg htarget]
  split
  · next h =>
    subst h
    rw [← hsteps]
    exact (gather_self (hsize.trans (elementCount_padded rank dims).symm)).symm
  · rfl

/-- Steps of length zero lead nowhere. -/
theorem dot_of_still {steps : List ℕ} (hstill : ∀ step ∈ steps, step = 0) (coords : List ℕ) :
    dot coords steps = 0 := by
  rw [dot, ← List.sum_eq_foldl]
  refine List.sum_eq_zero fun p hp => ?_
  obtain ⟨i, hi, rfl⟩ := List.getElem_of_mem hp
  rw [List.getElem_zipWith, hstill _ (List.getElem_mem _), Nat.mul_zero]

/-- A single element is the same everywhere. -/
theorem broadcastValues_unit (x : α) (rank : ℕ) (target : List ℕ) :
    broadcastValues #[x] (List.replicate rank 1) target =
      .ok (Array.replicate (elementCount target) x) := by
  unfold broadcastValues
  split
  · next h =>
    rw [← h, elementCount_units]
    rfl
  · have hstill : ∀ step ∈ broadcastStrides (List.replicate rank 1) target.length, step = 0 := by
      intro step hstep
      rcases List.mem_append.mp hstep with hstep | hstep
      · exact (List.mem_replicate.mp hstep).2
      · obtain ⟨i, hi, rfl⟩ := List.getElem_of_mem hstep
        simp
    refine gather_eq_ok.mpr ?_
    simp only [dot_of_still hstill]
    rw [Array.toList_replicate, List.forall₂_iff_get]
    exact ⟨by simp, fun i hi hi' => by simp⟩

/-! ## Operands of layers -/

/-- An operand that was stored, with unit axes in front, is read rounded. -/
theorem binary_store {h : Float → Float} (hcounted : u.Counted)
    (hy : binary t u dtype (fun a b => f a (dtype.rounded (h b))) = .ok y) :
    binary t ⟨dtype, padded t.rank u.dims, store (u.doubles.map h) dtype⟩ dtype f = .ok y := by
  obtain ⟨dims, as, bs, hdims, has, hbs, hy⟩ := binary_eq_ok_iff.mp hy
  have hlength : max t.rank u.dims.length = dims.length :=
    List.length_range.symm.trans (Outcome.mapM_eq_ok.mp hdims).length_eq
  have hsize : (u.doubles.map (dtype.rounded ∘ h)).size = elementCount u.dims := by
    rw [Array.size_map, size_doubles, hcounted]
  have hread := broadcastValues_map (dtype.rounded ∘ h) hbs
  rw [← broadcastValues_padded hsize hlength.le, ← Array.map_map, ← doubles_store] at hread
  refine binary_eq_ok_iff.mpr ⟨dims, as, _, broadcastShape_padded hdims, has, hread, ?_⟩
  rw [← hy]
  congr 1
  exact Array.ext (by simp) fun i hi hi' => by simp

/-- A number meets every element of an operand, which gets unit axes for those it lacks. -/
theorem binary_full (hcounted : t.Counted) (rank : ℕ) (x : Float) :
    binary t (full dtype (List.replicate rank 1) x) dtype f =
      .ok ⟨dtype, padded rank t.dims,
        store (t.doubles.map fun a => f a (dtype.rounded x)) dtype⟩ := by
  have hdoubles : (full dtype (List.replicate rank 1) x).doubles = #[dtype.rounded x] := by
    unfold full
    rw [doubles_store, elementCount_units]
    simp
  have hsize : t.doubles.size = elementCount t.dims := (size_doubles t).trans hcounted
  have hread : broadcastValues t.doubles t.dims (padded rank t.dims) = .ok t.doubles := by
    rw [← broadcastValues_padded hsize (length_padded rank t.dims).ge]
    exact broadcastValues_self _ _
  have hcount := elementCount_padded rank t.dims
  refine binary_eq_ok_iff.mpr ⟨_, _, _, broadcastShape_units t.dims rank, hread,
    hdoubles ▸ broadcastValues_unit _ rank _, build_eq_ok.mpr ⟨?_, ?_⟩⟩
  · rw [Array.size_zipWith, Array.size_replicate, hsize, hcount, Nat.min_self]
  · congr 2
    exact Array.ext (by simp [hsize, hcount]) fun i hi hi' => by simp

end Kernel

end HybridGraph
