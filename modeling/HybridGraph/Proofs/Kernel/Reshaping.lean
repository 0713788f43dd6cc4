import HybridGraph.Proofs.Kernel.Movements
/-!
# Reshape targets

A reshape target names extents, copies some of them from the operand and leaves one open at most.
Once zeros have copied (`copiedTarget`), the open entry is the only negative one, and the extents
around it are all that the elements have to fit: they must come to as many as there are, or, with an
open entry, to a number other than zero that divides it.  Targets of this kind are feasible, and
those are the ones that resolve, each of them to a single shape:

    targetShape dims target zeroCopies = .ok out ↔
      Feasible dims target zeroCopies ∧ ResolvesTo dims target zeroCopies out
                                                                    (targetShape_eq_ok_iff)

The open entry counts as one while the extents are multiplied, so a shape with some number in its
place has that number times as many elements (`prod_filled`).
-/

namespace HybridGraph.Kernel

variable {dims out : List ℕ} {whole target values : List ℤ} {zeroCopies inferred : Bool} {axis : ℕ}

/-! ## Entries -/

/-- The extent that an entry names at its axis; `-1` stays. -/
def copiedExtent (dims : List ℕ) (zeroCopies : Bool) (entry : ℤ × ℕ) : ℤ :=
  if entry.1 = 0 ∧ zeroCopies = true then extentAt dims entry.2 else entry.1

/-- The target once zeros have copied. -/
def copiedTarget (dims : List ℕ) (target : List ℤ) (zeroCopies : Bool) : List ℤ :=
  target.zipIdx.map (copiedExtent dims zeroCopies)

example : copiedTarget [2, 3, 4] [0, -1, 6] true = [2, -1, 6] ∧
    copiedTarget [2, 3, 4] [0, -1, 6] false = [0, -1, 6] := by decide

/-- An entry is open, or not negative and a copy of an extent that exists if it copies at all. -/
def Admissible (dims : List ℕ) (zeroCopies : Bool) (entry : ℤ × ℕ) : Prop :=
  entry.1 = -1 ∨ 0 ≤ entry.1 ∧ (entry.1 = 0 → zeroCopies = true → entry.2 < dims.length)

/-- The extent that is known of an entry. -/
def knownExtent? (extent : ℤ) : Option ℕ := if extent = -1 then none else some extent.toNat

theorem copiedExtent_eq_neg_one {entry : ℤ × ℕ} :
    copiedExtent dims zeroCopies entry = -1 ↔ entry.1 = -1 := by
  unfold copiedExtent
  split
  · next hcopy => exact iff_of_false (by omega) (by omega)
  · rfl

theorem nonneg_copiedExtent {entry : ℤ × ℕ} (h : Admissible dims zeroCopies entry) :
    copiedExtent dims zeroCopies entry = -1 ∨ 0 ≤ copiedExtent dims zeroCopies entry := by
  unfold copiedExtent
  split
  · exact .inr (Int.natCast_nonneg _)
  · exact h.imp_right And.left

theorem knownExtent?_copied {extent : ℤ} (hcopy : extent = 0 ∧ zeroCopies = true)
    (haxis : axis < dims.length) :
    knownExtent? (copiedExtent dims zeroCopies (extent, axis)) = some dims[axis] := by
  have hextent : copiedExtent dims zeroCopies (extent, axis) = dims[axis] := by
    simp [copiedExtent, hcopy, extentAt, haxis]
  rw [hextent, knownExtent?, if_neg (by omega), Int.toNat_natCast]

/-- An entry is read if it is admissible and not a second open one. -/
theorem targetExtents_cons_eq_ok {extent : ℤ} {extents : List (Option ℕ)} :
    targetExtents dims whole zeroCopies axis inferred (extent :: target) = .ok extents ↔
      (extent = -1 → inferred = false) ∧ Admissible dims zeroCopies (extent, axis) ∧
      ∃ rest, targetExtents dims whole zeroCopies (axis + 1) (inferred || extent == -1) target =
          .ok rest ∧
        knownExtent? (copiedExtent dims zeroCopies (extent, axis)) :: rest = extents := by
  rw [targetExtents]
  by_cases hopen : extent = -1
  · subst hopen
    have hfirst : Admissible dims zeroCopies (-1, axis) := .inl rfl
    have hknown : knownExtent? (copiedExtent dims zeroCopies (-1, axis)) = none := rfl
    rw [if_pos rfl, and_iff_right hfirst, hknown]
    cases inferred with
    | true => exact iff_of_false (by rintro ⟨⟩) fun h => absurd (h.1 rfl) (by decide)
    | false => exact Outcome.bind_eq_ok.trans (by simp [Outcome.pure_eq_ok])
  have hflag : (inferred || extent == -1) = inferred := by simp [hopen]
  rw [if_neg hopen, hflag, and_iff_right fun h => absurd h hopen]
  by_cases hcopy : extent = 0 ∧ zeroCopies = true
  · rw [if_pos hcopy]
    by_cases haxis : axis < dims.length
    · have hfirst : Admissible dims zeroCopies (extent, axis) :=
        .inr ⟨hcopy.1.ge, fun _ _ => haxis⟩
      rw [List.getElem?_eq_getElem haxis, and_iff_right hfirst, knownExtent?_copied hcopy haxis]
      exact Outcome.bind_eq_ok.trans (by simp [Outcome.pure_eq_ok])
    · rw [List.getElem?_eq_none (Nat.le_of_not_lt haxis)]
      refine iff_of_false (by rintro ⟨⟩) ?_
      rintro ⟨hfirst, -⟩
      exact haxis ((hfirst.resolve_left hopen).2 hcopy.1 hcopy.2)
  have hnamed : copiedExtent dims zeroCopies (extent, axis) = extent := if_neg hcopy
  rw [if_neg hcopy, hnamed, knownExtent?, if_neg hopen]
  by_cases hnonneg : 0 ≤ extent
  · have hfirst : Admissible dims zeroCopies (extent, axis) :=
      .inr ⟨hnonneg, fun hzero hcopies => absurd ⟨hzero, hcopies⟩ hcopy⟩
    rw [if_pos hnonneg, and_iff_right hfirst]
    exact Outcome.bind_eq_ok.trans (by simp [Outcome.pure_eq_ok])
  · rw [if_neg hnonneg]
    refine iff_of_false (by rintro ⟨⟩) ?_
    rintro ⟨hfirst, -⟩
    exact hnonneg (hfirst.resolve_left hopen).1

/-- Entries are read one after the other, and one of them may be open at most. -/
theorem targetExtents_eq_ok {extents : List (Option ℕ)} :
    targetExtents dims whole zeroCopies axis inferred target = .ok extents ↔
      target.count (-1) + inferred.toNat ≤ 1 ∧
      (∀ entry ∈ target.zipIdx axis, Admissible dims zeroCopies entry) ∧
      (target.zipIdx axis).map (fun entry =>
        knownExtent? (copiedExtent dims zeroCopies entry)) = extents := by
  induction target generalizing axis inferred extents with
  | nil =>
    have hflag := Bool.toNat_le inferred
    simp [targetExtents, hflag]
  | cons extent target ih =>
    have hcount : (extent :: target).count (-1) + inferred.toNat ≤ 1 ↔
        (extent = -1 → inferred = false) ∧
          target.count (-1) + (inferred || extent == -1).toNat ≤ 1 := by
      by_cases hopen : extent = -1
      · cases inferred <;> simp [hopen]
      · have hflag : (inferred || extent == -1) = inferred := by simp [hopen]
        rw [List.count_cons_of_ne hopen, hflag, and_iff_right fun h => absurd h hopen]
    rw [targetExtents_cons_eq_ok, List.zipIdx_cons, List.forall_mem_cons, List.map_cons, hcount]
    constructor
    · rintro ⟨hopen, hfirst, rest, hrest, rfl⟩
      obtain ⟨hlater, hall, rfl⟩ := ih.mp hrest
      exact ⟨⟨hopen, hlater⟩, ⟨hfirst, hall⟩, rfl⟩
    · rintro ⟨⟨hopen, hlater⟩, ⟨hfirst, hall⟩, rfl⟩
      exact ⟨hopen, hfirst, _, ih.mpr ⟨hlater, hall, rfl⟩, rfl⟩

/-! ## Filling in the open entry -/

/-- The extents with a number in the place of the open one. -/
def filled (values : List ℤ) (fill : ℕ) : List ℕ :=
  values.map fun extent => if extent = -1 then fill else extent.toNat

theorem map_getD_knownExtent (values : List ℤ) (fill : ℕ) :
    (values.map knownExtent?).map (·.getD fill) = filled values fill := by
  rw [List.map_map]
  refine List.map_congr_left fun extent _ => ?_
  rw [Function.comp_apply, knownExtent?]
  split <;> rfl

theorem contains_knownExtent (values : List ℤ) :
    (values.map knownExtent?).contains none = true ↔ -1 ∈ values := by
  rw [List.contains_iff_mem, List.mem_map]
  constructor
  · rintro ⟨extent, hmem, hopen⟩
    by_cases h : extent = -1
    · exact h ▸ hmem
    · rw [knownExtent?, if_neg h] at hopen
      cases hopen
  · exact fun hmem => ⟨-1, hmem, rfl⟩

theorem filled_of_notMem (h : -1 ∉ values) (fill fill' : ℕ) :
    filled values fill = filled values fill' := by
  refine List.map_congr_left fun extent hmem => ?_
  have hne : extent ≠ -1 := fun heq => h (heq ▸ hmem)
  rw [if_neg hne, if_neg hne]

/-- The open entry counts as one. -/
theorem prod_filled (values : List ℤ) (fill : ℕ) :
    (filled values fill).prod = fill ^ values.count (-1) * (filled values 1).prod := by
  induction values with
  | nil => rfl
  | cons extent values ih =>
    unfold filled at ih ⊢
    rw [List.map_cons, List.map_cons, List.prod_cons, List.prod_cons, ih]
    by_cases hopen : extent = -1
    · rw [hopen, if_pos rfl, if_pos rfl, List.count_cons_self]
      ring
    · rw [if_neg hopen, if_neg hopen, List.count_cons_of_ne hopen]
      ring

theorem prod_others (h : ∀ extent ∈ values, extent = -1 ∨ 0 ≤ extent) :
    (((filled values 1).prod : ℕ) : ℤ) = (values.filter (· ≠ -1)).prod := by
  induction values with
  | nil => rfl
  | cons extent values ih =>
    obtain ⟨hfirst, hrest⟩ := List.forall_mem_cons.mp h
    unfold filled at ih ⊢
    rw [List.map_cons, List.prod_cons, Nat.cast_mul, ih hrest]
    by_cases hopen : extent = -1
    · rw [if_pos hopen, List.filter_cons_of_neg (by simpa using hopen), Nat.cast_one, one_mul]
    · rw [if_neg hopen, List.filter_cons_of_pos (by simpa using hopen), List.prod_cons,
        Int.toNat_of_nonneg (hfirst.resolve_left hopen)]

/-- An extent that an entry names, unless that one is open. -/
def Names (extent : ℤ) (n : ℕ) : Prop := extent ≠ -1 → extent = n

/-- Extents that agree where the target is not open are the target filled in. -/
theorem exists_filled (hcount : values.count (-1) ≤ 1) (h : List.Forall₂ Names values out) :
    ∃ fill, out = filled values fill := by
  induction h with
  | nil => exact ⟨1, rfl⟩
  | @cons extent n values out hextent _ ih =>
    by_cases hopen : extent = -1
    · rw [hopen, List.count_cons_self] at hcount
      obtain ⟨fill, rfl⟩ := ih (by omega)
      have hnone : -1 ∉ values := List.count_eq_zero.mp (by omega)
      refine ⟨n, ?_⟩
      rw [filled_of_notMem hnone fill n, hopen]
      rfl
    · rw [List.count_cons_of_ne hopen] at hcount
      obtain ⟨fill, rfl⟩ := ih hcount
      refine ⟨fill, ?_⟩
      have hn : n = extent.toNat := by rw [hextent hopen, Int.toNat_natCast]
      unfold filled
      rw [List.map_cons, if_neg hopen, hn]

theorem forall₂_filled (h : ∀ extent ∈ values, extent = -1 ∨ 0 ≤ extent) (fill : ℕ) :
    List.Forall₂ Names values (filled values fill) := by
  refine List.forall₂_map_right_iff.mpr (List.forall₂_same.mpr fun extent hmem hopen => ?_)
  rw [if_neg hopen, Int.toNat_of_nonneg ((h extent hmem).resolve_left hopen)]

/-! ## Feasible targets -/

/-- One entry is open at most and no other one negative, zeros that copy lie inside the rank, and
the extents fit the number of elements. -/
structure Feasible (dims : List ℕ) (target : List ℤ) (zeroCopies : Bool) : Prop where
  inferred : target.count (-1) ≤ 1
  nonneg : ∀ extent ∈ target, extent = -1 ∨ 0 ≤ extent
  copied : zeroCopies = true → ∀ axis, target[axis]? = some 0 → axis < dims.length
  elements : -1 ∉ target ∧ (copiedTarget dims target zeroCopies).prod = dims.prod ∨
    -1 ∈ target ∧ ((copiedTarget dims target zeroCopies).filter (· ≠ -1)).prod ≠ 0 ∧
      ((copiedTarget dims target zeroCopies).filter (· ≠ -1)).prod ∣ dims.prod

/-- A shape that has the extents of the target, one for each entry that is not open, and as many
elements as the operand. -/
structure ResolvesTo (dims : List ℕ) (target : List ℤ) (zeroCopies : Bool) (out : List ℕ) :
    Prop where
  length : out.length = target.length
  agrees : ∀ (axis : ℕ) (extent : ℤ), (copiedTarget dims target zeroCopies)[axis]? = some extent →
    extent ≠ -1 → ∃ n : ℕ, out[axis]? = some n ∧ extent = n
  count : out.prod = dims.prod

theorem length_copiedTarget (dims : List ℕ) (target : List ℤ) (zeroCopies : Bool) :
    (copiedTarget dims target zeroCopies).length = target.length := by
  simp [copiedTarget]

/-- Copying neither opens an entry nor closes one. -/
theorem count_copiedTarget (dims : List ℕ) (target : List ℤ) (zeroCopies : Bool) :
    (copiedTarget dims target zeroCopies).count (-1) = target.count (-1) := by
  have hentries : target.count (-1) = target.zipIdx.countP fun entry => entry.1 == -1 := by
    conv_lhs => rw [← List.zipIdx_map_fst 0 target, List.count_eq_countP, List.countP_map]
    rfl
  rw [hentries, copiedTarget, List.count_eq_countP, List.countP_map]
  refine List.countP_congr fun entry _ => ?_
  simp [copiedExtent_eq_neg_one]

theorem mem_copiedTarget :
    -1 ∈ copiedTarget dims target zeroCopies ↔ -1 ∈ target := by
  rw [← List.count_pos_iff, count_copiedTarget, List.count_pos_iff]

theorem admissible_iff : (∀ entry ∈ target.zipIdx, Admissible dims zeroCopies entry) ↔
    (∀ extent ∈ target, extent = -1 ∨ 0 ≤ extent) ∧
      (zeroCopies = true → ∀ axis, target[axis]? = some 0 → axis < dims.length) := by
  constructor
  · intro h
    constructor
    · intro extent hmem
      obtain ⟨axis, haxis⟩ := List.mem_iff_getElem?.mp hmem
      exact (h (extent, axis) (List.mem_zipIdx_iff_getElem?.mpr haxis)).imp_right And.left
    · intro hcopies axis haxis
      have hzero := h (0, axis) (List.mem_zipIdx_iff_getElem?.mpr haxis)
      exact (hzero.resolve_left (by simp)).2 rfl hcopies
  · rintro ⟨hnonneg, hcopied⟩ ⟨extent, axis⟩ hentry
    have haxis := List.mem_zipIdx_iff_getElem?.mp hentry
    exact (hnonneg extent (List.mem_of_getElem? haxis)).imp_right fun hextent =>
      ⟨hextent, fun hzero hcopies => hcopied hcopies axis (hzero ▸ haxis)⟩

theorem nonneg_copiedTarget (h : ∀ entry ∈ target.zipIdx, Admissible dims zeroCopies entry) :
    ∀ extent ∈ copiedTarget dims target zeroCopies, extent = -1 ∨ 0 ≤ extent := by
  intro extent hmem
  obtain ⟨entry, hentry, rfl⟩ := List.mem_map.mp hmem
  exact nonneg_copiedExtent (h entry hentry)

/-- The elements of an operand fit the extents of a target. -/
def Fits (values : List ℤ) (total : ℕ) : Prop :=
  -1 ∉ values ∧ (filled values 1).prod = total ∨
    -1 ∈ values ∧ (filled values 1).prod ≠ 0 ∧ (filled values 1).prod ∣ total

theorem fits_iff {total : ℕ} (h : ∀ extent ∈ values, extent = -1 ∨ 0 ≤ extent) :
    Fits values total ↔ -1 ∉ values ∧ values.prod = total ∨
      -1 ∈ values ∧ (values.filter (· ≠ -1)).prod ≠ 0 ∧ (values.filter (· ≠ -1)).prod ∣ total := by
  unfold Fits
  rw [← prod_others h, Int.natCast_dvd_natCast, Nat.cast_ne_zero]
  refine or_congr_left (and_congr_right fun hnone => ?_)
  have hself : values.filter (· ≠ -1) = values := List.filter_eq_self.mpr fun extent hmem =>
    decide_eq_true fun heq => hnone (heq ▸ hmem)
  rw [← Nat.cast_inj (R := ℤ), prod_others h, hself]

theorem feasible_iff : Feasible dims target zeroCopies ↔ target.count (-1) ≤ 1 ∧
    (∀ entry ∈ target.zipIdx, Admissible dims zeroCopies entry) ∧
      Fits (copiedTarget dims target zeroCopies) dims.prod := by
  constructor
  · intro h
    have hall := admissible_iff.mpr ⟨h.nonneg, h.copied⟩
    refine ⟨h.inferred, hall, (fits_iff (nonneg_copiedTarget hall)).mpr ?_⟩
    rw [mem_copiedTarget]
    exact h.elements
  · rintro ⟨hcount, hall, hfits⟩
    obtain ⟨hnonneg, hcopied⟩ := admissible_iff.mp hall
    rw [fits_iff (nonneg_copiedTarget hall), mem_copiedTarget] at hfits
    exact ⟨hcount, hnonneg, hcopied, hfits⟩

/-- What is made of the extents that are known. -/
theorem fill_eq_ok {total : ℕ} {e : KernelError} :
    (if (values.map knownExtent?).contains none = true then
        if (filled values 1).prod = 0 ∨ total % (filled values 1).prod ≠ 0 then .error e
        else pure (filled values (total / (filled values 1).prod))
      else if (filled values 1).prod ≠ total then .error e
      else pure (filled values 1)) = (.ok out : Except KernelError (List ℕ)) ↔
    Fits values total ∧ out = filled values (total / (filled values 1).prod) := by
  unfold Fits
  by_cases hopen : -1 ∈ values
  · rw [if_pos ((contains_knownExtent values).mpr hopen)]
    simp only [hopen, not_true_eq_false, false_and, true_and, false_or]
    split
    · next hbad =>
      refine iff_of_false nofun fun ⟨⟨hknown, hdivides⟩, _⟩ => ?_
      exact hbad.elim hknown fun hrest => hrest (Nat.mod_eq_zero_of_dvd hdivides)
    · next hgood =>
      obtain ⟨hknown, hrest⟩ := not_or.mp hgood
      have hfits := And.intro hknown (Nat.dvd_of_mod_eq_zero (not_not.mp hrest))
      rw [Outcome.pure_eq_ok, and_iff_right hfits, eq_comm]
  · rw [if_neg (mt (contains_knownExtent values).mp hopen)]
    simp only [hopen, not_false_eq_true, false_and, true_and, or_false]
    split
    · next hbad => exact iff_of_false nofun fun h => hbad h.1
    · next hgood =>
      have hsame := filled_of_notMem hopen 1 (total / (filled values 1).prod)
      rw [Outcome.pure_eq_ok, and_iff_right (not_not.mp hgood), ← hsame, eq_comm]

/-- Feasible targets resolve, and the open entry takes what the other ones leave. -/
theorem targetShape_eq_ok : targetShape dims target zeroCopies = .ok out ↔
    Feasible dims target zeroCopies ∧ out = filled (copiedTarget dims target zeroCopies)
      (dims.prod / (filled (copiedTarget dims target zeroCopies) 1).prod) := by
  have hentries : target.zipIdx.map (fun entry =>
      knownExtent? (copiedExtent dims zeroCopies entry)) =
        (copiedTarget dims target zeroCopies).map knownExtent? := by
    rw [copiedTarget, List.map_map]
    rfl
  unfold targetShape targetShapeIn
  rw [Outcome.bind_eq_ok, feasible_iff]
  simp only [targetExtents_eq_ok, hentries, Bool.toNat_false, Nat.add_zero, and_assoc]
  rw [← fill_eq_ok (e := .reshape dims target)]
  constructor
  · rintro ⟨_, hcount, hall, rfl, h⟩
    simp only [map_getD_knownExtent, Inference.elementCount_eq_prod, id] at h
    exact ⟨hcount, hall, h⟩
  · rintro ⟨hcount, hall, h⟩
    refine ⟨_, hcount, hall, rfl, ?_⟩
    simp only [map_getD_knownExtent, Inference.elementCount_eq_prod, id]
    exact h

section

variable (hcount : values.count (-1) ≤ 1) {total : ℕ} (hfits : Fits values total)

include hcount hfits

/-- As many elements as there are. -/
theorem prod_filled_of_fits :
    (filled values (total / (filled values 1).prod)).prod = total := by
  rcases hfits with ⟨hopen, hprod⟩ | ⟨hopen, -, hdivides⟩
  · rw [filled_of_notMem hopen _ 1, hprod]
  · have hone : values.count (-1) = 1 := le_antisymm hcount (List.count_pos_iff.mpr hopen)
    rw [prod_filled, hone, pow_one, Nat.div_mul_cancel hdivides]

/-- Only one number fits in the place of the open entry. -/
theorem filled_eq_of_fits {fill : ℕ} (h : (filled values fill).prod = total) :
    filled values fill = filled values (total / (filled values 1).prod) := by
  rcases hfits with ⟨hopen, -⟩ | ⟨hopen, hknown, -⟩
  · exact filled_of_notMem hopen _ _
  · have hone : values.count (-1) = 1 := le_antisymm hcount (List.count_pos_iff.mpr hopen)
    rw [prod_filled, hone, pow_one] at h
    rw [← h, Nat.mul_div_cancel _ (Nat.pos_of_ne_zero hknown)]

end

theorem targetShape_eq_ok_iff : targetShape dims target zeroCopies = .ok out ↔
    Feasible dims target zeroCopies ∧ ResolvesTo dims target zeroCopies out := by
  rw [targetShape_eq_ok]
  refine and_congr_right fun hfeasible => ?_
  obtain ⟨hcount, hall, hfits⟩ := feasible_iff.mp hfeasible
  rw [← count_copiedTarget dims target zeroCopies] at hcount
  constructor
  · rintro rfl
    have hentries := forall₂_filled (nonneg_copiedTarget hall)
      (dims.prod / (filled (copiedTarget dims target zeroCopies) 1).prod)
    refine ⟨hentries.length_eq.symm.trans (length_copiedTarget dims target zeroCopies),
      fun axis extent haxis hopen => ?_, prod_filled_of_fits hcount hfits⟩
    obtain ⟨n, hn, hextent⟩ := Outcome.exists_getElem?_of_forall₂ hentries haxis
    exact ⟨n, hn, hextent hopen⟩
  · rintro ⟨hlength, hagrees, hprod⟩
    have hentries : List.Forall₂ Names (copiedTarget dims target zeroCopies) out := by
      refine List.forall₂_iff_get.mpr ⟨?_, fun axis haxis haxis' hopen => ?_⟩
      · rw [hlength, length_copiedTarget]
      · obtain ⟨n, hn, hextent⟩ := hagrees axis _ (List.getElem?_eq_getElem haxis) hopen
        rw [List.getElem?_eq_getElem haxis'] at hn
        rw [List.get_eq_getElem, List.get_eq_getElem, hextent, Option.some.inj hn]
    obtain ⟨fill, rfl⟩ := exists_filled hcount hentries
    exact filled_eq_of_fits hcount hfits hprod

/-- A target resolves exactly if it is feasible, to the one shape that has its extents and as many
elements as the operand.  Tensors of the operand's extents can always be given that shape. -/
theorem targetShape_feasible (dims : List ℕ) (target : List ℤ) (zeroCopies : Bool) :
    ((∃ out, targetShape dims target zeroCopies = .ok out) ↔ Feasible dims target zeroCopies) ∧
    ∀ out, targetShape dims target zeroCopies = .ok out →
      ResolvesTo dims target zeroCopies out ∧
      (∀ other, ResolvesTo dims target zeroCopies other → other = out) ∧
      ∀ x : Tensor, x.Counted → x.dims = dims → x.reshape out = .ok { x with dims := out } ∧
        reshape x out = .ok { x with dims := out } := by
  refine ⟨⟨fun ⟨out, hout⟩ => (targetShape_eq_ok.mp hout).1,
    fun h => ⟨_, targetShape_eq_ok.mpr ⟨h, rfl⟩⟩⟩, fun out hout => ?_⟩
  obtain ⟨hfeasible, hresolves⟩ := targetShape_eq_ok_iff.mp hout
  refine ⟨hresolves, fun other hother => ?_, fun x hx hdims => ?_⟩
  · have hsame := targetShape_eq_ok_iff.mpr ⟨hfeasible, hother⟩
    exact Except.ok.inj (hsame.symm.trans hout)
  · have hcount : elementCount out = x.size := by
      rw [hx, hdims, Inference.elementCount_eq_prod, Inference.elementCount_eq_prod,
        hresolves.count]
    have hreshape : reshape x out = .ok { x with dims := out } := reshape_eq_ok.mpr ⟨hcount, rfl⟩
    exact ⟨Outcome.mapError_eq_ok.mp hreshape, hreshape⟩

/-- A zero that copies, an open entry and an axis that is added. -/
theorem targetShape_feasible_copied :
    let x : Tensor := ⟨.i32, [2, 3], .i32 #[1, 2, 3, 4, 5, 6]⟩
    Feasible [2, 3] [0, -1, 1] true ∧ ResolvesTo [2, 3] [0, -1, 1] true [2, 3, 1] ∧
      x.reshape [2, 3, 1] = .ok ⟨.i32, [2, 3, 1], x.data⟩ := by
  intro x
  have hshape : targetShape [2, 3] [0, -1, 1] true = .ok [2, 3, 1] := rfl
  obtain ⟨haccepted, hresolved⟩ := targetShape_feasible [2, 3] [0, -1, 1] true
  obtain ⟨hresolves, -, hreshape⟩ := hresolved [2, 3, 1] hshape
  exact ⟨haccepted.mp ⟨_, hshape⟩, hresolves, (hreshape x rfl rfl).1⟩

/-- Without elements nothing can be inferred beside another zero. -/
example : (targetShape [0, 3] [-1, 3] true).toOption = some [0, 3] ∧
    (targetShape [0, 3] [0, -1] true).toOption = none ∧
    (targetShape [0, 3] [0, 5] false).toOption = some [0, 5] := ⟨rfl, rfl, rfl⟩

end HybridGraph.Kernel
