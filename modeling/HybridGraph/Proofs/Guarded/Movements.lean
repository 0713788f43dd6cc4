import HybridGraph.Execute.Interpreter
import HybridGraph.Proofs.Guarded.Broadcasting
/-!
# Guarded movements

Permutation, padding and reshaping with every index, slice, divisor and difference checked, and the
lists of axes and amounts that the interpreter makes for them:

    x.WellFormed → Ends Proper WellFormed (permute x perm) (Kernel.permute x perm)    (permute_ends)
    x.WellFormed → Ends Proper WellFormed (pad x pre post v) (Kernel.pad x pre post v)    (pad_ends)
    Ends Proper _ (resolveShape dims t z) (Kernel.resolveShape dims t z)         (resolveShape_ends)
-/

namespace HybridGraph.Guarded

variable {ε α : Type} {dims coords target : List ℕ}

/-! ## Permutation -/

/-- Marks an axis, which must be one of `rank` and unmarked. -/
def mark (rank : ℕ) (whole : List ℕ) (seen : List Bool) (axis : ℕ) :
    Guarded KernelError (List Bool) := do
  if rank ≤ axis then throw (.notPermutation whole)
  else if ← entry seen axis then throw (.notPermutation whole)
  else replace seen axis true

/-- Marks the axes of a list, each of its own positions once. -/
def marks (perm : List ℕ) : Guarded KernelError (List Bool) :=
  perm.foldlM (mark perm.length perm) (List.replicate perm.length false)

theorem foldlM_mark (whole rest : List ℕ) {rank : ℕ} {seen : List Bool}
    (hseen : seen.length = rank) : rest.foldlM (mark rank whole) seen =
      if (∀ axis ∈ rest, axis < rank ∧ seen[axis]? = some false) ∧ rest.Nodup then
        pure (rest.foldl (fun seen axis => seen.set axis true) seen)
      else plain (.error (.notPermutation whole)) := by
  induction rest generalizing seen with
  | nil => simp
  | cons axis rest ih =>
    rw [List.foldlM_cons]
    by_cases hrank : rank ≤ axis
    · rw [mark, if_pos hrank, if_neg]
      · rfl
      · exact fun h => absurd (h.1 axis List.mem_cons_self).1 (Nat.not_lt.mpr hrank)
    have haxis : axis < seen.length := by omega
    rw [mark, if_neg hrank, entry_of_lt haxis, pure_bind]
    by_cases hmarked : seen[axis] = true
    · rw [if_pos hmarked, if_neg]
      · rfl
      · intro h
        have hfalse := (h.1 axis List.mem_cons_self).2
        rw [List.getElem?_eq_getElem haxis, hmarked] at hfalse
        cases hfalse
    rw [if_neg hmarked, replace_of_lt haxis, pure_bind, ih (by rw [List.length_set, hseen])]
    refine if_congr ?_ rfl rfl
    -- an axis that comes again meets its own mark
    rw [List.forall_mem_cons, List.nodup_cons]
    have hfirst : axis < rank ∧ seen[axis]? = some false :=
      ⟨by omega, by simpa [haxis] using hmarked⟩
    constructor
    · rintro ⟨hrest, hnodup⟩
      refine ⟨⟨hfirst, fun a ha => ?_⟩, fun hmem => ?_, hnodup⟩
      · have hne : axis ≠ a := by
          rintro rfl
          have := (hrest axis ha).2
          simp [haxis] at this
        simpa [List.getElem?_set_ne hne] using hrest a ha
      · have := (hrest axis hmem).2
        simp [haxis] at this
    · rintro ⟨⟨-, hrest⟩, hnotMem, hnodup⟩
      refine ⟨fun a ha => ?_, hnodup⟩
      have hne : axis ≠ a := fun h => hnotMem (h ▸ ha)
      rw [List.getElem?_set_ne hne]
      exact hrest a ha

theorem marks_eq (perm : List ℕ) : marks perm =
    if Kernel.isPermutation perm = true then
      pure (perm.foldl (fun seen axis => seen.set axis true) (List.replicate perm.length false))
    else plain (.error (.notPermutation perm)) := by
  rw [marks, foldlM_mark _ _ List.length_replicate]
  refine if_congr ?_ rfl rfl
  unfold Kernel.isPermutation
  simp only [Bool.and_eq_true, List.all_eq_true, decide_eq_true_eq]
  refine and_congr_left fun _ => forall₂_congr fun axis _ => ?_
  exact and_iff_left_of_imp fun h => by simp [h]

/-- Reorders the axes: axis `k` of the result is axis `perm[k]` of the operand. -/
def permute (x : Tensor) (perm : List ℕ) : Guarded KernelError Tensor := do
  if perm.length ≠ x.rank then throw (.permutationRank perm x.rank)
  else
    let _ ← marks perm
    let target ← perm.mapM (entry x.dims)
    let values := x.doubles
    let out ← (Array.range values.size).mapM fun index => do
      let (coords, _) ← unravel target index
      let terms ← (coords.zip perm).mapM fun (coord, axis) =>
        return coord * (← entry (Kernel.strides x.dims) axis)
      read values terms.sum
    plain (Kernel.build x.dtype target out)

theorem sum_zip (coords perm steps : List ℕ) :
    ((coords.zip perm).map fun (coord, axis) => coord * steps.getD axis 0).sum =
      Kernel.dot coords (perm.map fun axis => steps.getD axis 0) := by
  rw [Kernel.dot_eq_sum, List.zipWith_map_right, List.zip, List.map_zipWith]

theorem permute_ends {x : Tensor} (hx : x.WellFormed) (perm : List ℕ) :
    Ends KernelError.Proper Tensor.WellFormed (permute x perm) (Kernel.permute x perm) := by
  unfold permute Kernel.permute
  split
  · exact .error trivial
  next hrank =>
  rw [marks_eq]
  by_cases hperm : Kernel.isPermutation perm = true
  swap
  · rw [if_neg hperm, if_pos (by simpa using hperm)]
    exact .error trivial
  rw [if_pos hperm, if_neg (by simpa using hperm), pure_bind]
  have hlength : perm.length = x.dims.length := not_not.mp hrank
  have hinside : ∀ axis ∈ perm, axis < x.dims.length := fun axis haxis =>
    hlength ▸ (Kernel.mem_of_isPermutation hperm).mp haxis
  have htarget : (perm.mapM (entry x.dims) : Guarded KernelError (List ℕ)) =
      pure (perm.map (Kernel.extentAt x.dims)) :=
    mapM_eq_pure fun axis haxis => by
      rw [entry_of_lt (hinside axis haxis), Kernel.extentAt, List.getD_eq_getElem]
  rw [htarget, pure_bind]
  refine (Ends.mapM_range fun index hindex => ?_).bind fun out _ _ =>
    build_ends _ _ _
  rw [hx.size_doubles, ← Kernel.elementCount_permuted hperm hlength.symm] at hindex
  rw [unravel_of_lt hindex, pure_bind]
  dsimp only
  rw [mapM_eq_pure (g := fun (coord, axis) => coord * (Kernel.strides x.dims).getD axis 0),
    pure_bind, sum_zip]
  · refine read_ends ?_
    rw [hx.size_doubles]
    exact Kernel.dot_permuted_lt hperm hlength.symm (Kernel.within_unravel hindex)
  · rintro ⟨coord, axis⟩ hmem
    have haxis : axis < (Kernel.strides x.dims).length :=
      Kernel.length_strides x.dims ▸ hinside axis (List.of_mem_zip hmem).2
    dsimp only
    rw [entry_of_lt haxis, pure_bind, List.getD_eq_getElem]

/-- The exchange of two axes; there is nothing to exchange where there are none. -/
def exchange (rank a b : ℕ) : Guarded ε (List ℕ) := do
  let axes := List.range rank
  if rank = 0 then return axes
  else
    let first ← entry axes a
    let second ← entry axes b
    return (axes.set a second).set b first

theorem exchange_eq {rank a b : ℕ} (ha : a < max rank 1) (hb : b < max rank 1) :
    (exchange rank a b : Guarded ε (List ℕ)) = pure (Kernel.exchange rank a b) := by
  unfold exchange Kernel.exchange
  dsimp only
  split
  · next hrank =>
    subst hrank
    rfl
  · have ha' : a < (List.range rank).length := by simp; omega
    have hb' : b < (List.range rank).length := by simp; omega
    rw [entry_of_lt ha', pure_bind, entry_of_lt hb', pure_bind]
    congr 1
    refine List.ext_getElem (by simp) fun i hi hi' => ?_
    simp only [List.getElem_set, List.getElem_range, List.getElem_map]
    split_ifs <;> omega

/-! ## Padding -/

/-- The padded extents. -/
def paddedExtents : ℕ → List ℕ → List ℤ → List ℤ → Guarded KernelError (List ℕ)
  | axis, extent :: dims, before :: pre, after :: post => do
    let padded := Kernel.signed ((extent : ℤ) + before + after)
    if padded < 0 then throw (.cropped axis)
    else return padded.toNat :: (← paddedExtents (axis + 1) dims pre post)
  | _, [], _, _ => return []
  | _, _, _, _ => trap .index

/-- The operand's flat index under coordinates of the result, if they lie inside the operand. -/
def paddedSource? : List ℕ → List ℕ → List ℕ → List ℤ → Guarded ε (Option ℕ)
  | coord :: coords, extent :: dims, stride :: steps, before :: pre => do
    let shifted := (coord : ℤ) - before
    if shifted < 0 ∨ (extent : ℤ) ≤ shifted then return none
    else return (← paddedSource? coords dims steps pre).map (shifted.toNat * stride + ·)
  | _, [], _, _ => return some 0
  | _, _, _, _ => trap .index

/-- Adds elements before and after each axis; negative amounts crop. -/
def pad (x : Tensor) (pre post : List ℤ) (value : Float) : Guarded KernelError Tensor := do
  if pre.length ≠ x.rank ∨ post.length ≠ x.rank then
    throw (.padRank pre.length post.length x.rank)
  else
    let target ← paddedExtents 0 x.dims pre post
    plain (Kernel.needRoom (Kernel.word (elementCount target)))
    let values := x.doubles
    let out ← (Array.range (Kernel.word (elementCount target))).mapM fun index => do
      let (coords, _) ← unravel target index
      match ← paddedSource? coords x.dims (Kernel.strides x.dims) pre with
      | some source => read values source
      | none => return value
    plain (Kernel.build x.dtype target out)

theorem paddedExtents_ends {pre post : List ℤ} (axis : ℕ) (hpre : pre.length = dims.length)
    (hpost : post.length = dims.length) :
    Ends KernelError.Proper (fun target => target.length = dims.length)
      (paddedExtents axis dims pre post) (Kernel.paddedExtents axis dims pre post) := by
  induction dims generalizing axis pre post with
  | nil =>
    obtain rfl := List.length_eq_zero_iff.mp hpre
    obtain rfl := List.length_eq_zero_iff.mp hpost
    exact .pure rfl
  | cons extent dims ih =>
    obtain ⟨before, pre, rfl⟩ := List.exists_cons_of_length_eq_add_one hpre
    obtain ⟨after, post, rfl⟩ := List.exists_cons_of_length_eq_add_one hpost
    unfold paddedExtents Kernel.paddedExtents
    dsimp only
    split
    · exact .error trivial
    · exact (ih _ (Nat.succ.inj hpre) (Nat.succ.inj hpost)).map fun _ => congrArg Nat.succ

theorem paddedSource?_eq {pre : List ℤ} (hpre : pre.length = dims.length)
    (hcoords : coords.length = dims.length) :
    (paddedSource? coords dims (Kernel.strides dims) pre : Guarded ε (Option ℕ)) =
      pure (Kernel.paddedSource? coords dims (Kernel.strides dims) pre) := by
  induction dims generalizing coords pre with
  | nil =>
    obtain rfl := List.length_eq_zero_iff.mp hpre
    obtain rfl := List.length_eq_zero_iff.mp hcoords
    rfl
  | cons extent dims ih =>
    obtain ⟨before, pre, rfl⟩ := List.exists_cons_of_length_eq_add_one hpre
    obtain ⟨coord, coords, rfl⟩ := List.exists_cons_of_length_eq_add_one hcoords
    rw [Kernel.strides, paddedSource?, Kernel.paddedSource?]
    split
    · rfl
    · rw [ih (Nat.succ.inj hpre) (Nat.succ.inj hcoords), pure_bind]

theorem pad_ends {x : Tensor} (hx : x.WellFormed) (pre post : List ℤ) (value : Float) :
    Ends KernelError.Proper Tensor.WellFormed (pad x pre post value)
      (Kernel.pad x pre post value) := by
  unfold pad Kernel.pad
  split
  · exact .error trivial
  next hranks =>
  rw [not_or, not_not, not_not] at hranks
  refine (paddedExtents_ends 0 hranks.1 hranks.2).bind fun target _ htarget => ?_
  refine (needRoom_ends _).bind fun _ _ _ => ?_
  refine (Ends.mapM_range fun index hindex => ?_).bind fun out _ _ =>
    build_ends _ _ _
  have hindex := hindex.trans_le (Nat.mod_le _ _)
  have hcoords : (Kernel.unravel target index).length = x.dims.length :=
    (Kernel.length_unravel target index).trans htarget
  rw [unravel_of_lt hindex, pure_bind]
  dsimp only
  rw [paddedSource?_eq hranks.1 hcoords, pure_bind]
  cases hsource : Kernel.paddedSource? (Kernel.unravel target index) x.dims
      (Kernel.strides x.dims) pre with
  | none => exact .pure trivial
  | some source =>
    refine read_ends ?_
    rw [hx.size_doubles]
    exact Kernel.paddedSource?_lt hranks.1 hcoords hsource

/-- Puts the pairs of amounts on their axes, the last axis first; `pair` are on theirs already. -/
def padSides (rank : ℕ) : ℕ → List ℤ → List ℤ × List ℤ → Guarded ε (List ℤ × List ℤ)
  | pair, before :: after :: rest, (pre, post) => do
    let axis ← difference (← difference rank 1) pair
    let pre ← replace pre axis before
    let post ← replace post axis after
    padSides rank (pair + 1) rest (pre, post)
  | _, _, sides => return sides

theorem replace_replicate (n : ℕ) (value : ℤ) (rest : List ℤ) :
    (replace (List.replicate (n + 1) 0 ++ rest) n value : Guarded ε (List ℤ)) =
      pure (List.replicate n 0 ++ value :: rest) := by
  rw [replace_of_lt (by simp; omega), List.replicate_succ', List.append_assoc,
    List.set_append_right _ _ (by simp)]
  simp

theorem padSides_eq {rank pair : ℕ} {amounts : List ℤ} (h : pair + amounts.length / 2 ≤ rank)
    (pre post : List ℤ) :
    (padSides rank pair amounts (List.replicate (rank - pair) 0 ++ pre,
      List.replicate (rank - pair) 0 ++ post) : Guarded ε (List ℤ × List ℤ)) =
      pure (List.replicate (rank - pair - amounts.length / 2) 0 ++
          (Kernel.pairedAmounts amounts).1 ++ pre,
        List.replicate (rank - pair - amounts.length / 2) 0 ++
          (Kernel.pairedAmounts amounts).2 ++ post) := by
  induction amounts using Kernel.pairedAmounts.induct generalizing pair pre post with
  | case1 before after rest _ _ _ ih =>
    have hlength : (before :: after :: rest).length / 2 = rest.length / 2 + 1 := by
      simp only [List.length_cons]
      omega
    rw [hlength] at h ⊢
    have hrank : rank - pair = rank - 1 - pair + 1 := by omega
    have hnext : rank - 1 - pair = rank - (pair + 1) := by omega
    rw [padSides, difference_of_le (by omega), pure_bind, difference_of_le (by omega), pure_bind,
      hrank, replace_replicate, pure_bind, replace_replicate, pure_bind, hnext,
      ih (by omega), Kernel.pairedAmounts]
    simp [Nat.add_sub_add_right]
  | case2 amounts hshort =>
    -- an amount without a partner is left out
    match amounts, hshort with
    | [], _ => simp [padSides, Kernel.pairedAmounts]
    | [amount], _ => simp [padSides, Kernel.pairedAmounts]
    | before :: after :: rest, hshort => exact (hshort before after rest rfl).elim

/-- The amounts before and after each axis of a rank, where all pairs have an axis. -/
theorem padSides_zero {rank : ℕ} {amounts : List ℤ} (h : amounts.length / 2 ≤ rank) :
    (padSides rank 0 amounts (List.replicate rank 0, List.replicate rank 0) :
      Guarded ε (List ℤ × List ℤ)) = pure (Kernel.padSides rank amounts) := by
  have hsides : (padSides rank 0 amounts _ : Guarded ε (List ℤ × List ℤ)) = _ :=
    padSides_eq ((Nat.zero_add _).trans_le h) [] []
  simp only [List.append_nil, Nat.sub_zero] at hsides
  exact hsides

/-! ## Reshaping -/

/-- Resolves a reshape target.  One `-1` is inferred from the number of elements; with
`zeroCopies` a `0` copies the operand's extent at the same position. -/
def resolveShape (dims : List ℕ) (target : List ℤ) (zeroCopies : Bool) :
    Guarded KernelError (List ℕ) := do
  let extents ← plain (Kernel.targetExtents dims target zeroCopies 0 false target)
  let total := Kernel.word (elementCount dims)
  let known := Kernel.word (elementCount (extents.map (·.getD 1)))
  if extents.contains none then
    if known = 0 then throw (.reshape dims target)
    else if (← remainder total known) ≠ 0 then throw (.reshape dims target)
    else
      let extent ← quotient total known
      return extents.map (·.getD extent)
  else if known ≠ total then throw (.reshape dims target)
  else return extents.map (·.getD 1)

theorem targetExtents_proper (dims : List ℕ) (whole target : List ℤ) (zeroCopies : Bool) (axis : ℕ)
    (inferred : Bool) : Outcome.FailsWith KernelError.Proper
      (Kernel.targetExtents dims whole zeroCopies axis inferred target) := by
  induction target generalizing axis inferred with
  | nil => exact .ok _
  | cons extent target ih =>
    have hlater : ∀ (first : Option ℕ) (inferred : Bool), Outcome.FailsWith KernelError.Proper
        (Kernel.targetExtents dims whole zeroCopies (axis + 1) inferred target >>=
          fun rest => pure (first :: rest)) := fun first inferred => (ih _ _).bind fun _ => .ok _
    unfold Kernel.targetExtents
    split
    · split
      · exact .error trivial
      · exact hlater _ _
    split
    · split
      · exact hlater _ _
      · exact .error trivial
    split
    · exact hlater _ _
    · exact .error trivial

theorem resolveShape_ends (dims : List ℕ) (target : List ℤ) (zeroCopies : Bool) :
    Ends KernelError.Proper (fun _ => True) (resolveShape dims target zeroCopies)
      (Kernel.resolveShape dims target zeroCopies) := by
  refine (Ends.plain (targetExtents_proper _ _ _ _ _ _) fun _ _ => trivial).bind
    (q := fun _ => True) fun extents _ _ => ?_
  dsimp only
  split
  · split
    · next hzero =>
      rw [if_pos (.inl hzero)]
      exact .error trivial
    next hknown =>
    rw [remainder_of_ne hknown, pure_bind]
    split
    · next hrest =>
      rw [if_pos (.inr hrest)]
      exact .error trivial
    · next hrest =>
      rw [if_neg (not_or.mpr ⟨hknown, hrest⟩), quotient_of_ne hknown, pure_bind]
      exact .pure trivial
  · split
    · exact .error trivial
    · exact .pure trivial

/-- The extents with those from `first` to `last` merged. -/
def flattenedExtents (dims : List ℕ) (first last : ℕ) : Guarded ε (List ℕ) := do
  let before ← front dims first
  let merged ← segment dims first (last + 1)
  let after ← back dims (last + 1)
  return before ++ elementCount merged :: after

theorem flattenedExtents_eq {first last : ℕ} (horder : first ≤ last) (hlast : last < dims.length) :
    (flattenedExtents dims first last : Guarded ε (List ℕ)) =
      pure (Reference.Call.flattenedExtents dims first last) := by
  rw [flattenedExtents, front_of_le (by omega), pure_bind, segment_of_le (by omega) hlast,
    pure_bind, back_of_le hlast, pure_bind]
  rfl

/-- The same elements under other extents. -/
theorem reshape_ends {x : Tensor} (hx : x.WellFormed) (dims : List ℕ) :
    Ends KernelError.Proper Tensor.WellFormed (plain (Kernel.reshape x dims))
      (Kernel.reshape x dims) := by
  refine .plain (fun e he => ?_) fun u hu => hx.of_reshape (Outcome.mapError_eq_ok.mp hu)
  obtain ⟨cause, -, rfl⟩ := Outcome.mapError_eq_error.mp he
  trivial

end HybridGraph.Guarded
