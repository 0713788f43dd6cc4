import HybridGraph.Proofs.Kernel.Layout
/-!
# Broadcasting

Shapes are aligned at their last axes, and what faces each other there must agree unless it is one
(`Compatible`).  Shapes under this operation are a partial commutative semigroup: operands may
change places, up to the order in which an error names them, and three operands may be put together
in either grouping, with the same shape or none at all:

    broadcastShape lhs rhs = .ok target ↔ Compatible lhs rhs ∧ IsBroadcast lhs rhs target
                                                                          (broadcastShape_eq_ok)
    broadcastShape rhs lhs = (broadcastShape lhs rhs).mapError mirrored     (broadcastShape_swap)

An operand is read at the coordinates of the result, those of axes that it lacks dropped and those
of its unit axes zero (`exists_broadcastValues`).  Where the result has the operand's own shape this
reads every element in its place, so there the elements need not be gathered
(`broadcastValues_eq_gatherBroadcast`).
-/

namespace HybridGraph

/-- The same error for the operands in the other order. -/
def KernelError.mirrored : KernelError → KernelError
  | .broadcast lhs rhs axis a b => .broadcast rhs lhs axis b a
  | e => e

namespace Kernel

variable {α : Type} {lhs rhs third target dims coords : List ℕ}

/-! ## Shapes -/

/-- Extents that face each other agree, or one of them is one. -/
def Compatible (lhs rhs : List ℕ) : Prop :=
  ∀ k, extentFromEnd lhs k = extentFromEnd rhs k ∨ extentFromEnd lhs k = 1 ∨
    extentFromEnd rhs k = 1

/-- Aligned at the last axes, each extent is that of one operand, or that of the other if the first
one is one. -/
structure IsBroadcast (lhs rhs target : List ℕ) : Prop where
  rank : target.length = max lhs.length rhs.length
  extent : ∀ k, extentFromEnd target k =
    if extentFromEnd lhs k = 1 then extentFromEnd rhs k else extentFromEnd lhs k

theorem extentFromEnd_of_lt {k : ℕ} (h : k < dims.length) :
    extentFromEnd dims k = dims[dims.length - 1 - k] := by
  rw [extentFromEnd, if_pos h, List.getD_eq_getElem]

theorem extentFromEnd_of_le {k : ℕ} (h : dims.length ≤ k) : extentFromEnd dims k = 1 :=
  if_neg (Nat.not_lt.mpr h)

theorem commonExtent_eq_ok {a b wide : ℕ} {e : KernelError} :
    (if a = b then .ok a else if a = 1 then .ok b else if b = 1 then .ok a else .error e) =
      Except.ok wide ↔ (a = b ∨ a = 1 ∨ b = 1) ∧ wide = if a = 1 then b else a := by
  split_ifs <;> simp_all [eq_comm]

theorem broadcastShape_eq_ok : broadcastShape lhs rhs = .ok target ↔
    Compatible lhs rhs ∧ IsBroadcast lhs rhs target := by
  unfold broadcastShape
  rw [Outcome.mapM_eq_ok, List.forall₂_iff_get]
  simp only [List.length_range, List.get_eq_getElem, List.getElem_range, commonExtent_eq_ok]
  constructor
  · rintro ⟨hrank, h⟩
    have hextent (k : ℕ) : (extentFromEnd lhs k = extentFromEnd rhs k ∨ extentFromEnd lhs k = 1 ∨
        extentFromEnd rhs k = 1) ∧ extentFromEnd target k =
          if extentFromEnd lhs k = 1 then extentFromEnd rhs k else extentFromEnd lhs k := by
      by_cases hk : k < target.length
      · have hplace := h (target.length - 1 - k) (by omega) (by omega)
        have hback : max lhs.length rhs.length - 1 - (target.length - 1 - k) = k := by omega
        rw [hback] at hplace
        rwa [extentFromEnd_of_lt hk]
      · rw [extentFromEnd_of_le (by omega : lhs.length ≤ k), extentFromEnd_of_le (by omega),
          extentFromEnd_of_le (by omega)]
        exact ⟨.inl rfl, rfl⟩
    exact ⟨fun k => (hextent k).1, hrank.symm, fun k => (hextent k).2⟩
  · rintro ⟨hcompatible, hrank, hextent⟩
    refine ⟨hrank.symm, fun axis haxis _ => ⟨hcompatible _, ?_⟩⟩
    rw [← hextent, ← hrank, getElem_eq_extentFromEnd]

theorem exists_broadcastShape (h : Compatible lhs rhs) :
    ∃ target, broadcastShape lhs rhs = .ok target := by
  cases hshape : broadcastShape lhs rhs with
  | ok target => exact ⟨target, rfl⟩
  | error e =>
    obtain ⟨axis, -, he⟩ := Outcome.exists_of_mapM_eq_error hshape
    cases he.symm.trans (commonExtent_eq_ok.mpr ⟨h (max lhs.length rhs.length - 1 - axis), rfl⟩)

/-- Extents counted from the last one are those of the reversed shape. -/
theorem extentFromEnd_eq_getD (dims : List ℕ) (k : ℕ) :
    extentFromEnd dims k = dims.reverse.getD k 1 := by
  by_cases hk : k < dims.length
  · rw [extentFromEnd_of_lt hk, List.getD_eq_getElem _ _ (by simpa using hk),
      List.getElem_reverse]
  · rw [extentFromEnd_of_le (Nat.le_of_not_lt hk), List.getD_eq_default _ _ (by simpa using hk)]

/-- Only the axes that both operands have can disagree. -/
theorem compatible_iff : Compatible lhs rhs ↔ ∀ facing ∈ lhs.reverse.zip rhs.reverse,
    facing.1 = facing.2 ∨ facing.1 = 1 ∨ facing.2 = 1 := by
  unfold Compatible
  rw [List.forall_mem_iff_getElem]
  simp only [extentFromEnd_eq_getD, List.length_zip, lt_min_iff, List.getElem_zip]
  constructor
  · intro h k hk
    have hfacing := h k
    rwa [List.getD_eq_getElem _ _ hk.1, List.getD_eq_getElem _ _ hk.2] at hfacing
  · intro h k
    by_cases hl : k < lhs.reverse.length
    · by_cases hr : k < rhs.reverse.length
      · rw [List.getD_eq_getElem _ _ hl, List.getD_eq_getElem _ _ hr]
        exact h k ⟨hl, hr⟩
      · exact .inr (.inr (List.getD_eq_default _ _ (Nat.le_of_not_lt hr)))
    · exact .inr (.inl (List.getD_eq_default _ _ (Nat.le_of_not_lt hl)))

/-! ## Order and grouping -/

/-- Facing extents have the same common extent, and disagree on the same axis, in either order. -/
theorem commonExtent_swap (a b axis : ℕ) :
    (if b = a then .ok b else if b = 1 then .ok a else if a = 1 then .ok b
      else .error (.broadcast rhs lhs axis b a)) =
    (if a = b then .ok a else if a = 1 then .ok b else if b = 1 then .ok a
      else .error (.broadcast lhs rhs axis a b) : Except KernelError ℕ).mapError
        KernelError.mirrored := by
  rcases eq_or_ne a b with rfl | hab
  · rw [if_pos rfl, if_pos rfl]
    rfl
  rw [if_neg hab, if_neg hab.symm]
  by_cases ha : a = 1
  · have hb : b ≠ 1 := fun hb => hab (ha.trans hb.symm)
    rw [if_neg hb, if_pos ha, if_pos ha]
    rfl
  · rw [if_neg ha, if_neg ha]
    split <;> rfl

theorem broadcastShape_swap (lhs rhs : List ℕ) :
    broadcastShape rhs lhs = (broadcastShape lhs rhs).mapError KernelError.mirrored := by
  unfold broadcastShape
  dsimp only
  rw [Outcome.mapError_mapM, Nat.max_comm]
  congr 1
  exact funext fun axis => commonExtent_swap _ _ axis

theorem broadcastShape_comm : broadcastShape rhs lhs = .ok target ↔
    broadcastShape lhs rhs = .ok target := by
  rw [broadcastShape_swap, Outcome.mapError_eq_ok]

/-- Three extents of which the first two have a common one, and that one and the third. -/
theorem commonExtent_regroup {a b c ab : ℕ} (hab : a = b ∨ a = 1 ∨ b = 1)
    (hcommon : ab = if a = 1 then b else a) (hc : ab = c ∨ ab = 1 ∨ c = 1) :
    (b = c ∨ b = 1 ∨ c = 1) ∧ ∀ bc, bc = (if b = 1 then c else b) →
      (a = bc ∨ a = 1 ∨ bc = 1) ∧
        (if ab = 1 then c else ab) = if a = 1 then bc else a := by
  by_cases ha : a = 1
  · rw [if_pos ha] at hcommon
    subst hcommon
    refine ⟨hc, fun bc hbc => ⟨.inr (.inl ha), ?_⟩⟩
    rw [if_pos ha, hbc]
  · rw [if_neg ha] at hcommon
    grind

/-- The second and the third operand may be put together first. -/
theorem exists_regrouped {inner : List ℕ} (hinner : broadcastShape lhs rhs = .ok inner)
    (h : broadcastShape inner third = .ok target) :
    ∃ last, broadcastShape rhs third = .ok last ∧ broadcastShape lhs last = .ok target := by
  obtain ⟨hfirst, hinner⟩ := broadcastShape_eq_ok.mp hinner
  obtain ⟨hsecond, htarget⟩ := broadcastShape_eq_ok.mp h
  have hextents (k : ℕ) := commonExtent_regroup (hfirst k) (hinner.extent k) (hsecond k)
  obtain ⟨last, hlast⟩ := exists_broadcastShape fun k => (hextents k).1
  have hfacing (k : ℕ) := (hextents k).2 _ ((broadcastShape_eq_ok.mp hlast).2.extent k)
  refine ⟨last, hlast, broadcastShape_eq_ok.mpr ⟨fun k => (hfacing k).1, ?_, fun k => ?_⟩⟩
  · rw [htarget.rank, hinner.rank, (broadcastShape_eq_ok.mp hlast).2.rank, Nat.max_assoc]
  · rw [htarget.extent, (hfacing k).2]

theorem broadcastShape_assoc :
    (broadcastShape lhs rhs >>= fun dims => broadcastShape dims third) = .ok target ↔
      (broadcastShape rhs third >>= fun dims => broadcastShape lhs dims) = .ok target := by
  rw [Outcome.bind_eq_ok, Outcome.bind_eq_ok]
  constructor
  · rintro ⟨inner, hinner, h⟩
    exact exists_regrouped hinner h
  · rintro ⟨inner, hinner, h⟩
    -- the other direction is the same one read backwards
    obtain ⟨last, hlast, hlhs⟩ :=
      exists_regrouped (broadcastShape_comm.mpr hinner) (broadcastShape_comm.mpr h)
    exact ⟨last, broadcastShape_comm.mpr hlast, broadcastShape_comm.mpr hlhs⟩

/-! ## Operands -/

/-- Coordinates inside the extents of an operand are its own. -/
theorem heldCoords_of_within (h : Within coords dims) : heldCoords dims coords = coords := by
  rw [heldCoords, h.length_eq, Nat.sub_self, List.drop_zero]
  induction h with
  | nil => rfl
  | cons hcoord _ ih =>
    rw [List.zipWith_cons_cons, ih]
    congr 1
    split <;> omega

theorem heldCoords_append {front back coords' : List ℕ} (hfront : front.length ≤ coords.length)
    (hback : coords'.length = back.length) : heldCoords (front ++ back) (coords ++ coords') =
      heldCoords front coords ++ heldCoords back coords' := by
  unfold heldCoords
  have hdrop : (coords ++ coords').length - (front ++ back).length =
      coords.length - front.length := by
    simp only [List.length_append]
    omega
  rw [hdrop, List.drop_append_of_le_length (Nat.sub_le _ _),
    List.zipWith_append (by simp; omega), hback, Nat.sub_self, List.drop_zero]

theorem length_heldCoords (h : dims.length ≤ coords.length) :
    (heldCoords dims coords).length = dims.length := by
  rw [heldCoords, List.length_zipWith, List.length_drop]
  omega

/-- The elements of an operand laid out over a shape one by one, whatever the shape is. -/
def gatherBroadcast (values : Array α) (dims target : List ℕ) : Except KernelError (Array α) :=
  gather values (elementCount target) fun index =>
    dot (unravel target index) (broadcastStrides dims target.length)

/-- Under its own shape an operand is gathered as it is. -/
theorem broadcastValues_eq_gatherBroadcast {values : Array α}
    (hsize : values.size = elementCount dims) (target : List ℕ) :
    broadcastValues values dims target = gatherBroadcast values dims target := by
  unfold broadcastValues
  split
  · next hsame => exact hsame ▸ (gather_self hsize).symm
  · rfl

/-- A broadcast operand is read at the coordinates of the result, as far as it has them. -/
theorem exists_broadcastValues {values : Array α} (h : Broadcasts dims target)
    (hsize : values.size = elementCount dims) :
    ∃ out, broadcastValues values dims target = .ok out ∧ out.size = elementCount target ∧
      ∀ coords, Within coords target →
        out[place target coords]? = values[place dims (heldCoords dims coords)]? := by
  have hinside : ∀ i < elementCount target,
      dot (unravel target i) (broadcastStrides dims target.length) < values.size :=
    fun i hi => hsize ▸ dot_broadcastStrides_lt h (within_unravel hi)
  obtain ⟨out, hout, hcount, hread⟩ := exists_gather hinside
  refine ⟨out, (broadcastValues_eq_gatherBroadcast hsize target).trans hout, hcount,
    fun coords hcoords => ?_⟩
  have hlength := (within_heldCoords h hcoords).length_eq
  rw [hread _ (place_lt hcoords), unravel_place hcoords, dot_broadcastStrides _ hcoords.length_eq,
    place_eq_dot hlength]

/-- Axes behind the broadcast ones stay as they are. -/
theorem Broadcasts.append (h : Broadcasts dims target) (back : List ℕ) :
    Broadcasts (dims ++ back) (target ++ back) := by
  refine ⟨by have := h.1; simp only [List.length_append]; omega, fun k => ?_⟩
  by_cases hk : k < back.length
  · have hsame (front : List ℕ) : extentFromEnd (front ++ back) k = extentFromEnd back k := by
      rw [extentFromEnd_of_lt hk, extentFromEnd_of_lt (by simp; omega),
        List.getElem_append_right (by simp; omega)]
      congr 1
      simp only [List.length_append]
      omega
    exact .inr ((hsame dims).trans (hsame target).symm)
  · obtain ⟨k, rfl⟩ := Nat.exists_eq_add_of_le (Nat.le_of_not_lt hk)
    rw [extentFromEnd_append, extentFromEnd_append]
    exact h.2 k

end Kernel

end HybridGraph
