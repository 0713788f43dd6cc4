import HybridGraph.Engine.Inference
import HybridGraph.Kernel.Movement
import HybridGraph.Kernel.Product
import HybridGraph.Kernel.Reduction
import HybridGraph.Proofs.Kernel.Stored
import Mathlib.Algebra.BigOperators.Ring.List
import Mathlib.Algebra.GroupWithZero.Nat
import Mathlib.Algebra.Order.BigOperators.Group.List
import Mathlib.Data.List.Forall2
import Mathlib.Data.List.GetD
import Mathlib.Data.List.Perm.Subperm
/-!
# Inference follows the kernels

Inference works on descriptors and the kernels on tensors.  Where all extents are known, a layer is
inferred to have the extents that its kernel gives the result, step by step: broadcasting, products,
reductions, padding, permutations and reshapes.

    Kernel.broadcastShape lhs rhs = .ok dims →
      broadcast (lhs.map .fixed) (rhs.map .fixed) = .ok (dims.map .fixed)
    Kernel.resolveShape dims target zeroCopies = .ok out →
      reshape (dims.map .fixed) target = .ok (out.map .fixed)

The second one needs a target without zeros where zeros do not copy, which is what
`Support.reshape` asks for.  A converter that merges axes writes zeros for the axes before them, and
no extent around the merged ones may be zero then (`Inference.resolveShape_merging_iff`).
-/

namespace HybridGraph

/-- Entries that are computed from the last one on. -/
theorem Outcome.mapM_fromEnd_eq_ok {ε α : Type} {f : Nat → Except ε α} {n : Nat} {out : List α} :
    (List.range n).mapM (fun i => f (n - 1 - i)) = .ok out ↔
      out.length = n ∧ ∀ k (h : k < out.length), f k = .ok out[out.length - 1 - k] := by
  rw [mapM_eq_ok, List.forall₂_iff_get]
  simp only [List.length_range, List.get_eq_getElem, List.getElem_range]
  constructor
  · rintro ⟨hlen, h⟩
    refine ⟨hlen.symm, fun k hk => ?_⟩
    have hlast := h (n - 1 - k) (by omega) (by omega)
    have hback : n - 1 - (n - 1 - k) = k := by omega
    rw [hback] at hlast
    simp only [← hlen]
    exact hlast
  · rintro ⟨rfl, h⟩
    refine ⟨rfl, fun i hi _ => ?_⟩
    have hlast := h (out.length - 1 - i) (by omega)
    have hback : out.length - 1 - (out.length - 1 - i) = i := by omega
    simpa only [hback] using hlast

/-- Partners of two lists in a row. -/
theorem exists_of_forall₂_append {α β : Type} {r : α → β → Prop} {front back : List α} {bs : List β}
    (h : List.Forall₂ r (front ++ back) bs) :
    ∃ before after, bs = before ++ after ∧ List.Forall₂ r front before ∧
      List.Forall₂ r back after := by
  refine ⟨bs.take front.length, bs.drop front.length, (List.take_append_drop _ bs).symm, ?_, ?_⟩
  · simpa using List.forall₂_take front.length h
  · simpa using List.forall₂_drop front.length h

/-! ## Machine integers -/

theorem Kernel.exists_signed_eq (n : Int) : ∃ k, signed n = n - 2 ^ 64 * k := by
  refine ⟨n.bdiv 18446744073709551616, ?_⟩
  rw [signed, Int.bmod_eq_self_sub_mul_bdiv]
  rfl

theorem Kernel.signed_lt (n : Int) : signed n < 2 ^ 63 := Int.bmod_lt (by decide)

theorem Kernel.le_signed (n : Int) : -2 ^ 63 ≤ signed n := Int.le_bmod (by decide)

theorem Kernel.signed_of_lt {n : Int} (h : -2 ^ 63 ≤ n) (h' : n < 2 ^ 63) : signed n = n := by
  obtain ⟨k, hk⟩ := exists_signed_eq n
  have := le_signed n
  have := signed_lt n
  omega

/-! ## Permutations -/

/-- A permutation has all axes. -/
theorem Kernel.perm_range_of_isPermutation {perm : List Nat} (h : isPermutation perm = true) :
    perm.Perm (List.range perm.length) := by
  unfold isPermutation at h
  simp only [Bool.and_eq_true, List.all_eq_true, decide_eq_true_eq] at h
  refine (List.perm_ext_iff_of_nodup h.2 List.nodup_range).mpr fun axis => ?_
  constructor
  · exact fun hmem => List.mem_range.mpr (h.1 axis hmem)
  · intro hmem
    have hsubset : perm ⊆ List.range perm.length := fun a ha => List.mem_range.mpr (h.1 a ha)
    exact (h.2.subperm hsubset).perm_of_length_le (by simp) |>.mem_iff.mpr hmem

namespace Inference

variable {lhs rhs out : List Dimension}

/-! ## Broadcasting -/

theorem fromEnd_of_le {k : Nat} (h : lhs.length ≤ k) : fromEnd lhs k = .fixed 1 :=
  if_neg (by omega)

theorem fromEnd_of_lt {k : Nat} (h : k < lhs.length) : fromEnd lhs k = lhs[lhs.length - 1 - k] := by
  unfold fromEnd
  rw [if_pos h, List.getD_eq_getElem]

theorem fromEnd_map_fixed (dims : List Nat) (k : Nat) :
    fromEnd (dims.map .fixed) k = .fixed (Kernel.extentFromEnd dims k) := by
  unfold fromEnd Kernel.extentFromEnd
  rw [List.length_map]
  split
  · rw [List.getD_map]
  · rfl

@[simp] theorem broadcastExtent_one (a : Dimension) : broadcastExtent a (.fixed 1) = .ok a := by
  unfold broadcastExtent
  by_cases h : a = .fixed 1
  · rw [if_pos h]
  · rw [if_neg h, if_neg h, if_pos rfl]

@[simp] theorem broadcastExtent_self (a : Dimension) : broadcastExtent a a = .ok a := if_pos rfl

/-- Lists broadcast extent by extent, from the last one on. -/
theorem broadcast_eq_ok : broadcast lhs rhs = .ok out ↔
    out.length = max lhs.length rhs.length ∧
      ∀ k, broadcastExtent (fromEnd lhs k) (fromEnd rhs k) = .ok (fromEnd out k) := by
  unfold broadcast
  rw [Outcome.mapM_fromEnd_eq_ok
    (f := fun k => broadcastExtent (fromEnd lhs k) (fromEnd rhs k))]
  refine and_congr_right fun hlen => ⟨fun h k => ?_, fun h k hk => ?_⟩
  · by_cases hk : k < out.length
    · rw [h k hk, fromEnd_of_lt hk]
    · rw [fromEnd_of_le (by omega), fromEnd_of_le (by omega), fromEnd_of_le (by omega),
        broadcastExtent_self]
  · rw [h k, fromEnd_of_lt hk]

/-- Units before the first extent are not seen from the end. -/
theorem fromEnd_units_append (n : Nat) (dims : List Dimension) (k : Nat) :
    fromEnd (List.replicate n (.fixed 1) ++ dims) k = fromEnd dims k := by
  by_cases hk : k < dims.length
  · rw [fromEnd_of_lt hk, fromEnd_of_lt (by simp; omega),
      List.getElem_append_right (by simp; omega)]
    simp only [List.length_append, List.length_replicate]
    congr 1
    omega
  · rw [fromEnd_of_le (Nat.le_of_not_lt hk)]
    by_cases hn : k < n + dims.length
    · rw [fromEnd_of_lt (by simpa using hn), List.getElem_append_left (by simp; omega),
        List.getElem_replicate]
    · exact fromEnd_of_le (by simpa using hn)

theorem fromEnd_units (n k : Nat) : fromEnd (List.replicate n (.fixed 1)) k = .fixed 1 := by
  rw [← List.append_nil (List.replicate n _), fromEnd_units_append]
  exact fromEnd_of_le (Nat.zero_le k)

/-- A list broadcasts to itself with as many units as it has extents. -/
theorem broadcast_units (dims : List Dimension) :
    broadcast dims (List.replicate dims.length (.fixed 1)) = .ok dims :=
  broadcast_eq_ok.mpr ⟨by simp, fun k => by rw [fromEnd_units, broadcastExtent_one]⟩

/-- Where extents are known, lists broadcast as the kernels do it. -/
theorem broadcast_of_broadcastShape {lhs rhs dims : List Nat}
    (h : Kernel.broadcastShape lhs rhs = .ok dims) :
    broadcast (lhs.map .fixed) (rhs.map .fixed) = .ok (dims.map .fixed) := by
  unfold broadcast
  unfold Kernel.broadcastShape at h
  rw [Outcome.mapM_eq_ok] at h ⊢
  rw [List.forall₂_map_right_iff, List.length_map, List.length_map]
  refine h.imp fun axis extent hextent => ?_
  rw [fromEnd_map_fixed, fromEnd_map_fixed]
  unfold broadcastExtent
  simp only [Dimension.fixed.injEq]
  dsimp only at hextent
  split at hextent
  · next heq => rw [if_pos heq, Except.ok.inj hextent]
  · next hne =>
    split at hextent
    · next hone => rw [if_neg hne, if_pos hone, Except.ok.inj hextent]
    · next hone =>
      split at hextent
      · next hone' => rw [if_neg hne, if_neg hone, if_pos hone', Except.ok.inj hextent]
      · cases hextent

/-- Operands broadcast alike after the second one has met as many units as the first one has
extents. -/
theorem broadcast_units_right (h : broadcast lhs rhs = .ok out) :
    ∃ wider, broadcast rhs (List.replicate lhs.length (.fixed 1)) = .ok wider ∧
      broadcast lhs wider = .ok out := by
  obtain ⟨hlen, hextents⟩ := broadcast_eq_ok.mp h
  refine ⟨List.replicate (lhs.length - rhs.length) (.fixed 1) ++ rhs,
    broadcast_eq_ok.mpr ⟨by simp; omega, fun k => ?_⟩,
    broadcast_eq_ok.mpr ⟨by simp; omega, fun k => ?_⟩⟩
  · rw [fromEnd_units, broadcastExtent_one, fromEnd_units_append]
  · rw [fromEnd_units_append, hextents k]

/-! ## Products and reductions -/

theorem productExtents_of_productShape {lhs rhs : List Nat} {shape : Kernel.ProductShape}
    (hlhs : 2 ≤ lhs.length) (hrhs : 2 ≤ rhs.length)
    (h : Kernel.productShape lhs rhs = .ok shape) :
    productExtents (lhs.map .fixed) (rhs.map .fixed) =
      .ok ((shape.batch ++ [shape.rows, shape.columns]).map .fixed) := by
  have hrow : ¬ lhs.length = 1 := by omega
  have hcolumn : ¬ rhs.length = 1 := by omega
  unfold Kernel.productShape at h
  obtain ⟨-, h⟩ := Outcome.guard_eq_ok.mp h
  simp only [if_neg hrow, if_neg hcolumn] at h
  obtain ⟨hinner, h⟩ := Outcome.guard_eq_ok.mp h
  obtain ⟨batch, hbatch, h⟩ := Outcome.bind_eq_ok.mp h
  obtain rfl := Outcome.pure_eq_ok.mp h
  have hbroadcast := broadcast_of_broadcastShape hbatch
  unfold Kernel.batchExtents at hbroadcast
  unfold productExtents
  refine Outcome.guard_eq_ok.mpr ⟨by simp only [List.length_map]; omega, ?_⟩
  simp only [fromEnd_map_fixed, List.length_map, ← List.map_take]
  refine Outcome.guard_eq_ok.mpr ⟨hinner, ?_⟩
  refine Outcome.bind_eq_ok.mpr ⟨_, hbroadcast, ?_⟩
  rw [List.map_append]
  rfl

theorem reduceExtents_map_fixed (dims axes : List Nat) (keep : Bool) :
    reduceExtents (dims.map .fixed) axes keep =
      (if keep then Kernel.keptExtents dims axes else Kernel.droppedExtents dims axes).map
        .fixed := by
  unfold reduceExtents Kernel.keptExtents Kernel.droppedExtents
  rw [List.zipIdx_map, List.filterMap_map]
  cases keep with
  | true =>
    simp only [reduceIte]
    rw [List.mapIdx_eq_zipIdx_map, List.map_map, ← List.filterMap_eq_map]
    refine List.filterMap_congr fun entry _ => ?_
    by_cases haxis : entry.2 ∈ axes <;> simp [haxis]
  | false =>
    simp only [Bool.false_eq_true, reduceIte]
    rw [List.map_map, ← List.filterMap_eq_map, List.filterMap_filter]
    refine List.filterMap_congr fun entry _ => ?_
    by_cases haxis : entry.2 ∈ axes <;> simp [haxis]

/-! ## Movements -/

theorem padExtents_of_paddedExtents {dims target : List Nat} {pre post : List Int} {axis : Nat}
    (h : Kernel.paddedExtents axis dims pre post = .ok target) :
    padExtents (dims.map .fixed) pre post = .ok (target.map .fixed) := by
  induction dims generalizing pre post axis target with
  | nil =>
    obtain rfl := Except.ok.inj h
    rfl
  | cons extent dims ih =>
    cases pre with
    | nil =>
      obtain rfl := Except.ok.inj h
      rfl
    | cons before pre =>
      cases post with
      | nil =>
        obtain rfl := Except.ok.inj h
        rfl
      | cons after post =>
        unfold Kernel.paddedExtents at h
        dsimp only at h
        split at h
        · cases h
        · next hfits =>
          obtain ⟨rest, hrest, h⟩ := Outcome.bind_eq_ok.mp h
          obtain rfl := Outcome.pure_eq_ok.mp h
          exact Outcome.bind_eq_ok.mpr ⟨.fixed _, if_neg hfits,
            Outcome.bind_eq_ok.mpr ⟨_, ih hrest, rfl⟩⟩

theorem shuffleExtents_permutation {dims : List Dimension} {perm : List Nat}
    (h : isPermutationOf perm dims.length = true) :
    shuffleExtents dims (some perm) none =
      .ok (perm.map fun axis => dims.getD axis (.fixed 1)) := by
  show (if isPermutationOf perm dims.length = true then _ else _) = _
  rw [if_pos h]
  rfl

/-! ## Reshapes -/

/-- What an entry of a reshape target, at its axis, stands for. -/
inductive Resolves (dims : List Dimension) : Int × Nat → Dimension → Prop where
  | inferred (axis : Nat) : Resolves dims (-1, axis) .dynamic
  | copied {axis : Nat} {dim : Dimension} (h : dims[axis]? = some dim) : Resolves dims (0, axis) dim
  | given {extent : Int} (axis : Nat) (h : 0 < extent) :
      Resolves dims (extent, axis) (.fixed extent.toNat)

theorem targetExtents_eq_ok {dims : List Dimension} {whole target : List Int} {axis : Nat}
    (h : List.Forall₂ (Resolves dims) (target.zipIdx axis) out) :
    targetExtents dims whole axis target = .ok out := by
  induction target generalizing axis out with
  | nil =>
    obtain rfl := List.forall₂_nil_left_iff.mp h
    rfl
  | cons extent target ih =>
    obtain ⟨dim, rest, hdim, hrest, rfl⟩ := List.forall₂_cons_left_iff.mp h
    have hlater : (targetExtents dims whole (axis + 1) target >>= fun rest => pure (dim :: rest)) =
        .ok (dim :: rest) := Outcome.bind_eq_ok.mpr ⟨rest, ih hrest, rfl⟩
    unfold targetExtents
    cases hdim with
    | inferred => exact hlater
    | copied hcopied =>
      rw [if_neg (by omega), if_pos rfl]
      simp only [hcopied]
      exact hlater
    | given _ hpos =>
      rw [if_neg (by omega), if_neg (by omega), if_pos hpos]
      exact hlater

/-- An entry with a known extent is not inferred. -/
theorem notMem_of_resolves {dims : List Dimension} {target : List Int} {axis : Nat}
    {known : List Nat}
    (h : List.Forall₂ (Resolves dims) (target.zipIdx axis) (known.map .fixed)) :
    -1 ∉ target := by
  induction target generalizing axis known with
  | nil => exact List.not_mem_nil
  | cons extent target ih =>
    cases known with
    | nil => cases h
    | cons n known =>
      obtain _ | ⟨hfirst, hrest⟩ := h
      rw [List.mem_cons, not_or]
      refine ⟨fun heq => ?_, ih hrest⟩
      subst heq
      cases hfirst with
      | given _ hpos => cases hpos

theorem fixedExtents?_map_fixed (dims : List Nat) :
    fixedExtents? (dims.map .fixed) = some dims := by
  induction dims with
  | nil => rfl
  | cons extent dims ih =>
    rw [fixedExtents?] at ih ⊢
    rw [List.map_cons, List.mapM_cons, ih]
    rfl

theorem count?_map_fixed (dims : List Nat) :
    count? (dims.map .fixed) = some (Kernel.word (elementCount dims)) := by
  rw [count?, fixedExtents?_map_fixed, Option.map_some]

/-- A reshape that names every extent. -/
theorem reshape_of_resolves {dims : List Dimension} {target : List Int} {known : List Nat}
    (h : List.Forall₂ (Resolves dims) target.zipIdx (known.map .fixed)) :
    reshape dims target = .ok (known.map .fixed) := by
  have hnone := notMem_of_resolves h
  unfold reshape
  refine Outcome.guard_eq_ok.mpr ⟨by rw [List.count_eq_zero.mpr hnone]; omega, ?_⟩
  refine Outcome.bind_eq_ok.mpr ⟨_, targetExtents_eq_ok h, ?_⟩
  dsimp only
  rw [if_pos (Nat.le_of_eq (List.idxOf_eq_length hnone).symm)]
  rfl

/-- A reshape that infers one extent. -/
theorem reshape_inferring {dims front back : List Nat} {fronts backs : List Int}
    (hfront : List.Forall₂ (Resolves (dims.map .fixed)) fronts.zipIdx (front.map .fixed))
    (hback : List.Forall₂ (Resolves (dims.map .fixed)) (backs.zipIdx (fronts.length + 1))
      (back.map .fixed))
    (hknown : Kernel.word (elementCount (front ++ back)) ≠ 0)
    (hdivides : Kernel.word (elementCount dims) % Kernel.word (elementCount (front ++ back)) = 0) :
    reshape (dims.map .fixed) (fronts ++ -1 :: backs) =
      .ok ((front ++ Kernel.word (elementCount dims) /
        Kernel.word (elementCount (front ++ back)) :: back).map .fixed) := by
  have hlen : fronts.length = front.length := by simpa using hfront.length_eq
  have hfirst := notMem_of_resolves hfront
  have hlast := notMem_of_resolves hback
  have hall : List.Forall₂ (Resolves (dims.map .fixed)) (fronts ++ -1 :: backs).zipIdx
      (front.map .fixed ++ .dynamic :: back.map .fixed) := by
    rw [List.zipIdx_append, List.zipIdx_cons]
    refine List.rel_append hfront (.cons (.inferred _) ?_)
    simpa using hback
  unfold reshape
  refine Outcome.guard_eq_ok.mpr ⟨?_, Outcome.bind_eq_ok.mpr ⟨_, targetExtents_eq_ok hall, ?_⟩⟩
  · simp [List.count_eq_zero.mpr hfirst, List.count_eq_zero.mpr hlast]
  · have hplace : (fronts ++ -1 :: backs).idxOf (-1) = front.length := by
      rw [List.idxOf_append_of_notMem hfirst, List.idxOf_cons_self, Nat.add_zero, hlen]
    have hothers : (front.map Dimension.fixed ++ .dynamic :: back.map Dimension.fixed).eraseIdx
        front.length = (front ++ back).map .fixed := by
      rw [List.eraseIdx_append_of_length_le (by simp)]
      simp
    dsimp only
    rw [hplace, if_neg (by simp [hlen]), hothers, count?_map_fixed, count?_map_fixed]
    dsimp only
    rw [if_neg (by simp [hknown, hdivides]), List.set_append_right _ _ (by simp)]
    simp
    rfl

/-- Entries that are not inferred have known extents if the operand has. -/
theorem exists_known_of_resolves {dims : List Nat} {target : List Int} {axis : Nat}
    (hnone : -1 ∉ target)
    (h : List.Forall₂ (Resolves (dims.map .fixed)) (target.zipIdx axis) out) :
    ∃ known : List Nat, out = known.map .fixed := by
  induction target generalizing axis out with
  | nil => exact ⟨[], List.forall₂_nil_left_iff.mp h⟩
  | cons extent target ih =>
    obtain ⟨dim, rest, hdim, hrest, rfl⟩ := List.forall₂_cons_left_iff.mp h
    rw [List.mem_cons, not_or] at hnone
    obtain ⟨known, rfl⟩ := ih hnone.2 hrest
    cases hdim with
    | inferred => exact absurd rfl hnone.1
    | given _ hpos => exact ⟨extent.toNat :: known, rfl⟩
    | copied hcopied =>
      obtain ⟨n, -, rfl⟩ := List.mem_map.mp (List.mem_of_getElem? hcopied)
      exact ⟨n :: known, rfl⟩

/-- The inferred entry is still open, and those around it are resolved in their places. -/
theorem exists_split_of_resolves {dims : List Dimension} {fronts backs : List Int}
    (h : List.Forall₂ (Resolves dims) (fronts ++ -1 :: backs).zipIdx out) :
    ∃ front back, out = front ++ .dynamic :: back ∧
      List.Forall₂ (Resolves dims) fronts.zipIdx front ∧
      List.Forall₂ (Resolves dims) (backs.zipIdx (fronts.length + 1)) back := by
  rw [List.zipIdx_append, List.zipIdx_cons, Nat.zero_add] at h
  obtain ⟨front, rest, rfl, hfront, hrest⟩ := exists_of_forall₂_append h
  obtain ⟨dim, back, hdim, hback, rfl⟩ := List.forall₂_cons_left_iff.mp hrest
  cases hdim with
  | inferred => exact ⟨front, back, rfl, hfront, hback⟩
  | given _ hpos => cases hpos

/-- The extents that the kernels resolve, an inferred one still open. -/
def openExtents (extents : List (Option Nat)) : List Dimension :=
  extents.map fun extent => extent.elim .dynamic .fixed

/-- The kernels resolve a target entry by entry and infer one extent at most. -/
theorem resolves_of_kernel {dims : List Nat} {whole target : List Int} {zeroCopies inferred : Bool}
    {axis : Nat} {extents : List (Option Nat)} (hzero : zeroCopies = true ∨ 0 ∉ target)
    (h : Kernel.targetExtents dims whole zeroCopies axis inferred target = .ok extents) :
    List.Forall₂ (Resolves (dims.map .fixed)) (target.zipIdx axis) (openExtents extents) ∧
      target.count (-1) + inferred.toNat ≤ 1 := by
  induction target generalizing axis inferred extents with
  | nil =>
    obtain rfl := Except.ok.inj h
    exact ⟨.nil, by simpa using Bool.toNat_le inferred⟩
  | cons n target ih =>
    have hlater : zeroCopies = true ∨ 0 ∉ target :=
      hzero.imp_right fun hmem hzero => hmem (List.mem_cons_of_mem n hzero)
    unfold Kernel.targetExtents at h
    split at h
    · next hminus =>
      subst hminus
      split at h
      · cases h
      · next hfirst =>
        obtain ⟨rest, hrest, h⟩ := Outcome.bind_eq_ok.mp h
        obtain rfl := Outcome.pure_eq_ok.mp h
        obtain ⟨hresolves, hcount⟩ := ih hlater hrest
        refine ⟨.cons (.inferred axis) hresolves, ?_⟩
        rw [List.count_cons_self, Bool.eq_false_iff.mpr hfirst]
        simpa using hcount
    · next hminus =>
      rw [List.count_cons_of_ne hminus]
      split at h
      · next hcopy =>
        obtain ⟨rfl, -⟩ := hcopy
        split at h
        · next copied hcopied =>
          obtain ⟨rest, hrest, h⟩ := Outcome.bind_eq_ok.mp h
          obtain rfl := Outcome.pure_eq_ok.mp h
          obtain ⟨hresolves, hcount⟩ := ih hlater hrest
          refine ⟨.cons (.copied ?_) hresolves, hcount⟩
          rw [List.getElem?_map, hcopied, Option.map_some]
          rfl
        · cases h
      · next hcopy =>
        split at h
        · next hnonneg =>
          obtain ⟨rest, hrest, h⟩ := Outcome.bind_eq_ok.mp h
          obtain rfl := Outcome.pure_eq_ok.mp h
          obtain ⟨hresolves, hcount⟩ := ih hlater hrest
          have hne : n ≠ 0 := fun hn => hzero.elim (fun hcopies => hcopy ⟨hn, hcopies⟩)
            fun hmem => hmem (hn ▸ List.mem_cons_self)
          exact ⟨.cons (.given axis (by omega)) hresolves, hcount⟩
        · cases h

theorem elementCount_eq_prod (dims : List Nat) : elementCount dims = dims.prod :=
  List.prod_eq_foldl.symm

/-- Number of elements of a shape in which extents of zero count as one.  A word that holds it holds
the product of any of the extents. -/
def volume (dims : List Nat) : Nat := elementCount (dims.map (max 1))

theorem one_le_of_mem_map_max {dims : List Nat} : ∀ n ∈ dims.map (max 1), 1 ≤ n := by
  intro n hn
  obtain ⟨m, -, rfl⟩ := List.mem_map.mp hn
  exact Nat.le_max_left 1 m

theorem volume_le {dims wider : List Nat} (h : List.Forall₂ (· ≤ ·) dims wider) :
    volume dims ≤ volume wider := by
  unfold volume
  rw [elementCount_eq_prod, elementCount_eq_prod]
  refine List.Forall₂.prod_le_prod' ?_
  rw [List.forall₂_map_left_iff, List.forall₂_map_right_iff]
  exact h.imp fun n m hle => max_le_max_left 1 hle

theorem volume_le_of_sublist {dims wider : List Nat} (h : dims.Sublist wider) :
    volume dims ≤ volume wider := by
  unfold volume
  rw [elementCount_eq_prod, elementCount_eq_prod]
  exact (h.map _).prod_le_prod' one_le_of_mem_map_max

theorem volume_perm {dims moved : List Nat} (h : dims.Perm moved) : volume dims = volume moved := by
  unfold volume
  rw [elementCount_eq_prod, elementCount_eq_prod]
  exact (h.map _).prod_eq

theorem elementCount_le_volume (dims : List Nat) : elementCount dims ≤ volume dims := by
  unfold volume
  rw [elementCount_eq_prod, elementCount_eq_prod]
  refine List.Forall₂.prod_le_prod' ?_
  rw [List.forall₂_map_right_iff]
  exact List.forall₂_same.mpr fun n _ => Nat.le_max_right 1 n

theorem le_volume_of_mem {dims : List Nat} {n : Nat} (h : n ∈ dims) : n ≤ volume dims := by
  calc n ≤ max 1 n := Nat.le_max_right 1 n
    _ = volume [n] := (Nat.one_mul _).symm
    _ ≤ volume dims := volume_le_of_sublist (List.singleton_sublist.mpr h)

theorem word_of_volume {dims : List Nat} (h : volume dims < 2 ^ 64) :
    Kernel.word (elementCount dims) = elementCount dims :=
  Nat.mod_eq_of_lt ((elementCount_le_volume dims).trans_lt h)

theorem eq_some_of_openExtents {extents : List (Option Nat)} {known : List Nat}
    (h : openExtents extents = known.map .fixed) : extents = known.map some := by
  induction extents generalizing known with
  | nil =>
    rw [List.map_eq_nil_iff.mp h.symm]
    rfl
  | cons extent extents ih =>
    cases known with
    | nil => cases h
    | cons n known =>
      obtain ⟨hfirst, hrest⟩ := List.cons.inj h
      rw [ih hrest, List.map_cons]
      cases extent with
      | none => cases hfirst
      | some m => rw [Dimension.fixed.inj hfirst]

theorem eq_of_openExtents {extents : List (Option Nat)} {front back : List Nat}
    (h : openExtents extents = front.map .fixed ++ .dynamic :: back.map .fixed) :
    extents = front.map some ++ none :: back.map some := by
  obtain ⟨before, rest, rfl, hbefore, hrest⟩ := List.map_eq_append_iff.mp h
  obtain ⟨extent, after, rfl, hextent, hafter⟩ := List.map_eq_cons_iff.mp hrest
  rw [eq_some_of_openExtents hbefore, eq_some_of_openExtents hafter]
  cases extent with
  | none => rfl
  | some n => cases hextent

/-- Where extents are known, a target is resolved as the kernels do it, unless it has zeros that
stand for themselves. -/
theorem reshape_of_resolveShape {dims out : List Nat} {target : List Int} {zeroCopies : Bool}
    (hzero : zeroCopies = true ∨ 0 ∉ target)
    (h : Kernel.resolveShape dims target zeroCopies = .ok out) :
    reshape (dims.map .fixed) target = .ok (out.map .fixed) := by
  obtain ⟨extents, hextents, h⟩ := Outcome.bind_eq_ok.mp h
  obtain ⟨hresolves, hone⟩ := resolves_of_kernel hzero hextents
  dsimp only at h
  by_cases hmem : -1 ∈ target
  · obtain ⟨fronts, backs, rfl, hfronts⟩ := List.eq_append_cons_of_mem hmem
    have hbacks : -1 ∉ backs := by
      rw [List.count_append, List.count_cons_self] at hone
      exact List.count_eq_zero.mp (by omega)
    obtain ⟨opens, closeds, hsplit, hfront, hback⟩ := exists_split_of_resolves hresolves
    obtain ⟨front, rfl⟩ := exists_known_of_resolves hfronts hfront
    obtain ⟨back, rfl⟩ := exists_known_of_resolves hbacks hback
    obtain rfl := eq_of_openExtents hsplit
    have hfill : ∀ n : Nat, (front.map some ++ none :: back.map some).map (·.getD n) =
        front ++ n :: back := by
      simp [Function.comp_def]
    have hcount : elementCount (front ++ 1 :: back) = elementCount (front ++ back) := by
      simp [elementCount_eq_prod]
    rw [if_pos (by simp), hfill, hfill, hcount] at h
    split at h
    · cases h
    · next hdivides =>
      obtain rfl := Outcome.pure_eq_ok.mp h
      rw [not_or, not_not] at hdivides
      exact reshape_inferring hfront hback hdivides.1 hdivides.2
  · obtain ⟨known, hknown⟩ := exists_known_of_resolves hmem hresolves
    obtain rfl := eq_some_of_openExtents hknown
    have hfill : (known.map some).map (·.getD 1) = known := by simp [Function.comp_def]
    rw [if_neg (by simp), hfill] at h
    split at h
    · cases h
    · obtain rfl := Outcome.pure_eq_ok.mp h
      exact reshape_of_resolves (hknown ▸ hresolves)

/-- The extents of a merged run and of the axes around it have the product of all. -/
theorem elementCount_merging (dims : List Nat) {first last : Nat} (horder : first ≤ last) :
    elementCount dims = elementCount ((dims.take (last + 1)).drop first) *
      elementCount (dims.take first ++ dims.drop (last + 1)) := by
  have hparts : dims.take first ++ (dims.take (last + 1)).drop first ++ dims.drop (last + 1) =
      dims := by
    have htake : dims.take first = (dims.take (last + 1)).take first := by
      rw [List.take_take, Nat.min_eq_left (by omega)]
    rw [htake, List.take_append_drop, List.take_append_drop]
  conv_lhs => rw [← hparts]
  simp only [elementCount_eq_prod, List.prod_append]
  rw [Nat.mul_comm (dims.take first).prod, Nat.mul_assoc]

/-- Zeros copy the extents in their places. -/
theorem targetExtents_zeros {dims : List Nat} {whole rest : List Int} {count axis : Nat}
    {inferred : Bool} (h : axis + count ≤ dims.length) :
    Kernel.targetExtents dims whole true axis inferred (List.replicate count 0 ++ rest) =
      (Kernel.targetExtents dims whole true (axis + count) inferred rest).map
        (((dims.drop axis).take count).map some ++ ·) := by
  induction count generalizing axis with
  | zero =>
    rw [List.replicate_zero, List.nil_append, Nat.add_zero]
    cases Kernel.targetExtents dims whole true axis inferred rest <;> rfl
  | succ count ih =>
    have hlt : axis < dims.length := by omega
    rw [List.replicate_succ, List.cons_append, Kernel.targetExtents, if_neg (by decide),
      if_pos ⟨rfl, rfl⟩, List.getElem?_eq_getElem hlt]
    dsimp only
    rw [ih (by omega), List.drop_eq_getElem_cons hlt, Nat.add_right_comm axis 1 count]
    show _ = (Kernel.targetExtents dims whole true (axis + count + 1) inferred rest).map _
    cases Kernel.targetExtents dims whole true (axis + count + 1) inferred rest <;> rfl

/-- Extents that are not zero stand for themselves. -/
theorem targetExtents_given {dims extents : List Nat} {whole : List Int}
    {zeroCopies inferred : Bool} (hzero : 0 ∉ extents) (axis : Nat) :
    Kernel.targetExtents dims whole zeroCopies axis inferred (extents.map Int.ofNat) =
      .ok (extents.map some) := by
  induction extents generalizing axis with
  | nil => rfl
  | cons n extents ih =>
    rw [List.mem_cons, not_or] at hzero
    have hn : ¬ (Int.ofNat n = 0 ∧ zeroCopies = true) := fun h => hzero.1 (Int.ofNat.inj h.1).symm
    have hnonneg : 0 ≤ Int.ofNat n := Int.natCast_nonneg n
    rw [List.map_cons, Kernel.targetExtents, if_neg nofun, if_neg hn, if_pos hnonneg, ih hzero.2]
    rfl

/-- Extents that are not inferred are known. -/
theorem exists_known_of_targetExtents {dims extents : List Nat} {whole : List Int} {inferred : Bool}
    {axis : Nat} {found : List (Option Nat)}
    (h : Kernel.targetExtents dims whole true axis inferred (extents.map Int.ofNat) = .ok found) :
    ∃ known : List Nat, found = known.map some := by
  have hnone : -1 ∉ extents.map Int.ofNat := by simp
  obtain ⟨known, hknown⟩ := exists_known_of_resolves hnone (resolves_of_kernel (.inl rfl) h).1
  exact ⟨known, eq_some_of_openExtents hknown⟩

theorem targetShapeIn_merging_eq_ok {keep : Nat → Nat} {dims out : List Nat} {back : List Nat}
    {first : Nat} (hfirst : first ≤ dims.length) :
    Kernel.targetShapeIn keep dims (List.replicate first 0 ++ -1 :: back.map Int.ofNat) true =
        .ok out ↔
      ∃ known, Kernel.targetExtents dims (List.replicate first 0 ++ -1 :: back.map Int.ofNat) true
          (first + 1) true (back.map Int.ofNat) = .ok (known.map some) ∧
        keep (elementCount (dims.take first ++ known)) ≠ 0 ∧
        keep (elementCount dims) % keep (elementCount (dims.take first ++ known)) = 0 ∧
        dims.take first ++ keep (elementCount dims) /
          keep (elementCount (dims.take first ++ known)) :: known = out := by
  have hfill : ∀ (n : Nat) (known : List Nat),
      ((dims.take first).map some ++ none :: known.map some).map (·.getD n) =
        dims.take first ++ n :: known := by
    simp [Function.comp_def]
  have hcount : ∀ known : List Nat, elementCount (dims.take first ++ 1 :: known) =
      elementCount (dims.take first ++ known) := by
    simp [elementCount_eq_prod]
  unfold Kernel.targetShapeIn
  generalize hwhole : List.replicate first 0 ++ -1 :: back.map Int.ofNat = whole
  have hentries : Kernel.targetExtents dims whole true 0 false whole =
      (Kernel.targetExtents dims whole true (first + 1) true (back.map Int.ofNat)).map fun found =>
        (dims.take first).map some ++ none :: found := by
    conv_lhs => rw [← hwhole, targetExtents_zeros (by omega), hwhole, Kernel.targetExtents,
      if_pos rfl, if_neg nofun, Nat.zero_add]
    cases Kernel.targetExtents dims whole true (first + 1) true (back.map Int.ofNat) <;> rfl
  rw [hentries]
  cases hback : Kernel.targetExtents dims whole true (first + 1) true (back.map Int.ofNat) with
  | error e => simp [Except.map, bind, Except.bind]
  | ok found =>
    obtain ⟨known, rfl⟩ := exists_known_of_targetExtents hback
    show (if ((dims.take first).map some ++ none :: known.map some).contains none then _ else _) =
      _ ↔ _
    rw [if_pos (by simp), hfill, hfill, hcount]
    constructor
    · intro h
      split at h
      · cases h
      · next hdivides =>
        rw [not_or, not_not] at hdivides
        exact ⟨known, rfl, hdivides.1, hdivides.2, Outcome.pure_eq_ok.mp h⟩
    · rintro ⟨other, hother, hknown, hdivides, rfl⟩
      obtain rfl := List.map_injective_iff.mpr (Option.some_injective Nat) (Except.ok.inj hother)
      rw [if_neg (not_or.mpr ⟨hknown, not_not.mpr hdivides⟩)]
      rfl

/-- Axes from `first` to `last` are merged by copies before them and known extents after them
exactly if no extent around them is zero. -/
theorem resolveShape_merging_iff {dims : List Nat} {first last : Nat} (horder : first ≤ last)
    (hlast : last < dims.length) (hvolume : volume dims < 2 ^ 64) :
    Kernel.resolveShape dims
        (List.replicate first 0 ++ -1 :: (dims.drop (last + 1)).map Int.ofNat) true =
      .ok (dims.take first ++ elementCount ((dims.take (last + 1)).drop first) ::
        dims.drop (last + 1)) ↔
      0 ∉ dims.take first ∧ 0 ∉ dims.drop (last + 1) := by
  have hcount := elementCount_merging dims horder
  have htotal : Kernel.word (elementCount dims) = elementCount dims :=
    word_of_volume hvolume
  have haround : Kernel.word (elementCount (dims.take first ++ dims.drop (last + 1))) =
      elementCount (dims.take first ++ dims.drop (last + 1)) := by
    refine word_of_volume ((volume_le_of_sublist ?_).trans_lt hvolume)
    conv_rhs => rw [← List.take_append_drop first dims]
    exact (List.Sublist.refl _).append (List.drop_sublist_drop_left _ (by omega))
  rw [Kernel.resolveShape, targetShapeIn_merging_eq_ok (by omega)]
  constructor
  · rintro ⟨known, -, hknown, -, heq⟩
    obtain rfl := (List.cons.inj (List.append_cancel_left heq)).2
    rw [haround, elementCount_eq_prod, Ne, List.prod_eq_zero_iff, List.mem_append, not_or] at hknown
    exact hknown
  · intro hzero
    have hknown : elementCount (dims.take first ++ dims.drop (last + 1)) ≠ 0 := by
      rw [elementCount_eq_prod, Ne, List.prod_eq_zero_iff, List.mem_append, not_or]
      exact hzero
    refine ⟨_, targetExtents_given hzero.2 _, ?_⟩
    rw [haround, htotal]
    refine ⟨hknown, ?_, ?_⟩
    · rw [hcount, Nat.mul_mod_left]
    · rw [hcount, Nat.mul_div_cancel _ (Nat.pos_of_ne_zero hknown)]

/-- Axes from `first` to `last` are merged if no extent around them is zero. -/
theorem reshape_merging {dims : List Nat} {first last : Nat} (horder : first ≤ last)
    (hlast : last < dims.length) (hpos : ∀ n ∈ dims, 0 < n) (hvolume : volume dims < 2 ^ 64) :
    reshape (dims.map .fixed)
        (List.replicate first 0 ++ -1 :: (dims.drop (last + 1)).map Int.ofNat) =
      .ok ((dims.take first ++ elementCount ((dims.take (last + 1)).drop first) ::
        dims.drop (last + 1)).map .fixed) :=
  reshape_of_resolveShape (.inl rfl) <| (resolveShape_merging_iff horder hlast hvolume).mpr
    ⟨fun hmem => (hpos 0 (List.mem_of_mem_take hmem)).false,
      fun hmem => (hpos 0 (List.mem_of_mem_drop hmem)).false⟩

end Inference

/-! ## Layers -/

namespace LayerKind

open Inference

variable {d e : TensorSig}

theorem infer_activation {function : Activation} (h : d.dtype.isFloat = true) :
    (activation function).infer [d] = .ok d :=
  Outcome.bind_eq_ok.mpr ⟨d, rfl, Outcome.bind_eq_ok.mpr ⟨(), if_pos h, rfl⟩⟩

theorem infer_unary {op : UnaryOp} (h : op = .neg ∨ op = .abs ∨ d.dtype.isFloat = true) :
    (unary op).infer [d] = .ok d := by
  refine Outcome.bind_eq_ok.mpr ⟨d, rfl, ?_⟩
  dsimp only
  split
  · next hop => exact Outcome.bind_eq_ok.mpr ⟨(), if_pos (by tauto), rfl⟩
  · rfl

theorem infer_elementWise {op : BinaryOp} {dims : List Dimension} (hdtype : e.dtype = d.dtype)
    (hpow : op = .pow → d.dtype.isFloat = true) (h : broadcast d.dims e.dims = .ok dims) :
    (elementWise op).infer [d, e] = .ok ⟨d.dtype, dims⟩ := by
  have hlast : (broadcast d.dims e.dims >>= fun dims => pure (TensorSig.mk d.dtype dims)) =
      .ok ⟨d.dtype, dims⟩ := Outcome.bind_eq_ok.mpr ⟨dims, h, rfl⟩
  refine Outcome.bind_eq_ok.mpr ⟨(d, e), rfl, Outcome.bind_eq_ok.mpr ⟨(), if_pos hdtype.symm, ?_⟩⟩
  dsimp only
  split
  · next hop => exact Outcome.bind_eq_ok.mpr ⟨(), if_pos (hpow hop), hlast⟩
  · exact hlast

theorem infer_parametricRelu (h : d.dtype.isFloat = true) (hrank : e.rank ≤ 1) :
    parametricRelu.infer [d, e] = .ok d := by
  refine Outcome.bind_eq_ok.mpr ⟨(d, e), rfl, Outcome.bind_eq_ok.mpr ⟨(), if_pos h, ?_⟩⟩
  exact Outcome.guard_eq_ok.mpr ⟨Nat.not_lt.mpr hrank, rfl⟩

theorem infer_matrixMultiply {dims : List Dimension} (hfloat : d.dtype.isFloat = true)
    (hdtype : e.dtype = d.dtype) (h : productExtents d.dims e.dims = .ok dims) :
    matrixMultiply.infer [d, e] = .ok ⟨d.dtype, dims⟩ :=
  Outcome.bind_eq_ok.mpr ⟨(d, e), rfl, Outcome.bind_eq_ok.mpr ⟨(), if_pos hfloat,
    Outcome.bind_eq_ok.mpr ⟨(), if_pos hdtype.symm, Outcome.bind_eq_ok.mpr ⟨dims, h, rfl⟩⟩⟩⟩

theorem infer_shuffle {perm : Option (List Nat)} {target : Option (List Int)}
    {dims : List Dimension} (h : shuffleExtents d.dims perm target = .ok dims) :
    (shuffle perm target).infer [d] = .ok ⟨d.dtype, dims⟩ :=
  Outcome.bind_eq_ok.mpr ⟨d, rfl, Outcome.bind_eq_ok.mpr ⟨dims, h, rfl⟩⟩

theorem infer_pad {pre post : List Int} {value : Float} {dims : List Dimension}
    (hpre : pre.length = d.rank) (hpost : post.length = d.rank)
    (h : padExtents d.dims pre post = .ok dims) :
    (pad pre post value).infer [d] = .ok ⟨d.dtype, dims⟩ := by
  refine Outcome.bind_eq_ok.mpr ⟨d, rfl, Outcome.guard_eq_ok.mpr ⟨by tauto, ?_⟩⟩
  exact Outcome.bind_eq_ok.mpr ⟨dims, h, rfl⟩

theorem infer_softmax {axis : Nat} (hfloat : d.dtype.isFloat = true) (haxis : axis < max d.rank 1) :
    (softmax axis).infer [d] = .ok d :=
  Outcome.bind_eq_ok.mpr ⟨d, rfl, Outcome.bind_eq_ok.mpr ⟨(), if_pos hfloat,
    Outcome.bind_eq_ok.mpr ⟨(), if_pos haxis, rfl⟩⟩⟩

theorem infer_reduce {op : ReduceOp} {axes : List Nat} {keep : Bool}
    (hop : op = .mean → d.dtype.isFloat = true) (haxes : ∀ axis ∈ axes, axis < max d.rank 1) :
    (reduce op axes keep).infer [d] = .ok ⟨d.dtype, reduceExtents d.dims axes keep⟩ := by
  have hlast : (axes.forM (needAxis · d.rank) >>= fun _ =>
      pure (TensorSig.mk d.dtype (reduceExtents d.dims axes keep))) =
      .ok ⟨d.dtype, reduceExtents d.dims axes keep⟩ :=
    Outcome.bind_eq_ok.mpr ⟨(), Outcome.forM_eq_ok.mpr fun axis h => if_pos (haxes axis h), rfl⟩
  refine Outcome.bind_eq_ok.mpr ⟨d, rfl, ?_⟩
  dsimp only
  split
  · next hmean => exact Outcome.bind_eq_ok.mpr ⟨(), if_pos (hop hmean), hlast⟩
  · exact hlast

end LayerKind

/-! ## Results of kernels -/

/-- The descriptor of a tensor. -/
def Tensor.sig (t : Tensor) : TensorSig := .of t.dtype t.dims

@[simp] theorem Tensor.rank_sig (t : Tensor) : t.sig.rank = t.rank := List.length_map _

theorem Tensor.sig_eq_iff {t : Tensor} {dtype : DType} {dims : List Dimension} :
    t.sig = ⟨dtype, dims⟩ ↔ t.dtype = dtype ∧ t.sig.dims = dims := by
  constructor
  · intro h
    exact ⟨congrArg TensorSig.dtype h, congrArg TensorSig.dims h⟩
  · rintro ⟨rfl, rfl⟩
    rfl

theorem Tensor.sig_cast (t : Tensor) (dtype : DType) :
    (t.cast dtype).sig = ⟨dtype, t.sig.dims⟩ := by
  unfold cast
  split
  · next h =>
    subst h
    rfl
  · rfl

namespace Kernel

open Inference

variable {x y a b : Tensor} {dtype : DType}

theorem lt_of_axisIndex {n : Int} {rank axis : Nat} (h : axisIndex n rank = .ok axis) :
    axis < max rank 1 := by
  have hmax : ((Nat.max rank 1 : Nat) : Int) = (max rank 1 : Nat) := rfl
  have hrange : ∀ resolved : Int,
      (if resolved < 0 ∨ ((Nat.max rank 1 : Nat) : Int) ≤ resolved then
        Except.error (KernelError.axisRange n rank) else .ok resolved.toNat) = .ok axis →
      axis < max rank 1 := by
    intro resolved h
    split at h
    · cases h
    · obtain rfl := Except.ok.inj h
      omega
  exact hrange _ h

theorem sig_of_map {f : Float → Float} (h : map x dtype f = .ok y) :
    y.sig = ⟨dtype, x.sig.dims⟩ := by
  obtain ⟨-, rfl⟩ := map_eq_ok.mp h
  rfl

theorem sig_of_binary {f : Float → Float → Float} (h : binary a b dtype f = .ok y) :
    y.sig.dtype = dtype ∧ broadcast a.sig.dims b.sig.dims = .ok y.sig.dims := by
  obtain ⟨dims, hdims, h⟩ := Outcome.bind_eq_ok.mp h
  obtain ⟨_, -, h⟩ := Outcome.bind_eq_ok.mp h
  obtain ⟨_, -, h⟩ := Outcome.bind_eq_ok.mp h
  obtain ⟨-, rfl⟩ := build_eq_ok.mp h
  exact ⟨rfl, broadcast_of_broadcastShape hdims⟩

theorem sig_of_prelu (h : prelu a b = .ok y) : y.sig = a.sig := by
  unfold prelu at h
  dsimp only at h
  split at h
  · obtain ⟨_, -, h⟩ := Outcome.bind_eq_ok.mp h
    exact sig_of_map h
  · split at h
    · cases h
    · obtain ⟨_, -, h⟩ := Outcome.bind_eq_ok.mp h
      obtain ⟨-, rfl⟩ := build_eq_ok.mp h
      rfl

theorem sig_of_matmul (ha : 2 ≤ a.rank) (hb : 2 ≤ b.rank) (h : matmul a b = .ok y) :
    productExtents a.sig.dims b.sig.dims = .ok y.sig.dims := by
  obtain ⟨shape, hshape, h⟩ := Outcome.bind_eq_ok.mp h
  obtain ⟨_, -, h⟩ := Outcome.bind_eq_ok.mp h
  obtain ⟨-, rfl⟩ := build_eq_ok.mp h
  have hrow : ¬ a.rank = 1 := by omega
  have hcolumn : ¬ b.rank = 1 := by omega
  rw [if_neg hrow, if_neg hcolumn, List.append_assoc]
  exact productExtents_of_productShape ha hb hshape

theorem sig_of_permute {perm : List Nat} (h : permute x perm = .ok y) :
    y.sig.dtype = x.dtype ∧ shuffleExtents x.sig.dims (some perm) none = .ok y.sig.dims := by
  refine ⟨dtype_of_permute h, ?_⟩
  unfold permute at h
  split at h
  · cases h
  · next hrank =>
    split at h
    · cases h
    · next hperm =>
      obtain ⟨_, -, hbuild⟩ := Outcome.bind_eq_ok.mp h
      obtain ⟨-, rfl⟩ := build_eq_ok.mp hbuild
      have hlen : perm.length = x.dims.length := not_not.mp hrank
      have hpermutes : isPermutationOf perm (x.dims.map Dimension.fixed).length = true := by
        simpa [isPermutationOf, isPermutation, hlen] using hperm
      have hdims : (perm.map fun axis => (x.dims.map Dimension.fixed).getD axis (.fixed 1)) =
          (perm.map (extentAt x.dims)).map .fixed := by
        rw [List.map_map]
        exact List.map_congr_left fun axis _ => List.getD_map ..
      exact (shuffleExtents_permutation hpermutes).trans (congrArg Except.ok hdims)

/-- Only permutations permute, and the result has all their axes. -/
theorem nodup_of_permute {perm : List Nat} (h : permute x perm = .ok y) :
    perm.length = x.rank ∧ perm.Nodup ∧ y.rank = perm.length := by
  unfold permute at h
  split at h
  · cases h
  · next hrank =>
    split at h
    · cases h
    · next hperm =>
      have hperm : isPermutation perm = true := by simpa using hperm
      obtain ⟨_, -, h⟩ := Outcome.bind_eq_ok.mp h
      obtain ⟨-, rfl⟩ := build_eq_ok.mp h
      exact ⟨not_not.mp hrank, of_decide_eq_true (Bool.and_eq_true_iff.mp hperm).2,
        List.length_map _⟩

theorem sig_of_reshape {dims : List Nat} (h : reshape x dims = .ok y) :
    y.sig = .of x.dtype dims := by
  have h := Outcome.mapError_eq_ok.mp h
  unfold Tensor.reshape at h
  split at h
  · obtain rfl := Except.ok.inj h
    rfl
  · cases h

theorem sig_of_pad {pre post : List Int} {value : Float} (h : pad x pre post value = .ok y) :
    y.sig.dtype = x.dtype ∧ pre.length = x.rank ∧ post.length = x.rank ∧
      padExtents x.sig.dims pre post = .ok y.sig.dims := by
  unfold pad at h
  split at h
  · cases h
  · next hlen =>
    obtain ⟨target, htarget, h⟩ := Outcome.bind_eq_ok.mp h
    obtain ⟨_, -, h⟩ := Outcome.bind_eq_ok.mp h
    obtain ⟨_, -, h⟩ := Outcome.bind_eq_ok.mp h
    obtain ⟨-, rfl⟩ := build_eq_ok.mp h
    rw [not_or, not_not, not_not] at hlen
    exact ⟨rfl, hlen.1, hlen.2, padExtents_of_paddedExtents htarget⟩

theorem sig_of_softmax {axis : Nat} (h : softmax x axis dtype = .ok y) :
    y.sig = ⟨dtype, x.sig.dims⟩ := by
  unfold softmax at h
  split at h
  · next hrank =>
    obtain ⟨-, rfl⟩ := build_eq_ok.mp h
    have hdims : x.dims = [] := List.length_eq_zero_iff.mp hrank
    simp [Tensor.sig, TensorSig.of, hdims]
  · split at h
    · cases h
    · obtain ⟨_, -, h⟩ := Outcome.bind_eq_ok.mp h
      obtain ⟨-, rfl⟩ := build_eq_ok.mp h
      rfl

theorem sig_of_reduce {axes : List Nat} {keep mean : Bool}
    (h : reduce x axes keep mean dtype = .ok y) :
    y.sig = ⟨dtype, reduceExtents x.sig.dims axes keep⟩ := by
  unfold reduce at h
  split at h
  · cases h
  · obtain ⟨_, -, h⟩ := Outcome.bind_eq_ok.mp h
    obtain ⟨-, rfl⟩ := build_eq_ok.mp h
    exact congrArg (TensorSig.mk dtype) (reduceExtents_map_fixed x.dims axes keep).symm

end Kernel

end HybridGraph
