import HybridGraph.Proofs.Engine.Conforming
import Mathlib.Algebra.Order.BigOperators.Group.List
import Mathlib.Tactic.Ring
/-!
# Larger operands have larger results

Where all extents are known, every layer is monotone in them (`Inference.stable_atMost`): units and
zeros included, broadcasting yields the larger of two extents or the one beside a unit, and padding
shifts an extent by a constant, which keeps the order unless one of the two sums wraps and the other
does not.  A reshape needs an argument.  The extent that it infers is a
quotient of two numbers of elements, and both grow with the operand where the target copies extents.
Compared crosswise, entry by entry, a copied extent occurs on both sides and cancels:

    ns ≤ ns' →  ns.prod * known'.prod ≤ ns'.prod * known.prod           (cross_le_append)

The numbers of elements have to be what words hold of them, so the larger extents must be small.

That all extents are known is itself kept by every layer (`LayerKind.exists_known_of_infer`), since
to be one and the same known number is a relation that layers keep, reshapes included: beside an
extent that is still to be inferred all others are known, so it is inferred.
-/

namespace HybridGraph

/-! ## Known extents -/

/-- A known extent, the same on both sides. -/
def Dimension.BothKnown (a b : Dimension) : Prop := ∃ n, a = .fixed n ∧ b = .fixed n

namespace Inference

variable {dims out : List Dimension}

theorem forall₂_bothKnown {known : List Nat} :
    List.Forall₂ Dimension.BothKnown (known.map .fixed) (known.map .fixed) := by
  rw [List.forall₂_map_left_iff, List.forall₂_map_right_iff, List.forall₂_same]
  exact fun n _ => ⟨n, rfl, rfl⟩

/-- Lists of known extents are the same. -/
theorem exists_of_forall₂_bothKnown {dims' : List Dimension}
    (h : List.Forall₂ Dimension.BothKnown dims dims') :
    ∃ known : List Nat, dims = known.map .fixed ∧ dims' = known.map .fixed := by
  induction h with
  | nil => exact ⟨[], rfl, rfl⟩
  | cons hdim _ ih =>
    obtain ⟨n, rfl, rfl⟩ := hdim
    obtain ⟨known, rfl, rfl⟩ := ih
    exact ⟨n :: known, rfl, rfl⟩

/-- A reshape of known extents leaves none open: the inferred one is a quotient of known numbers. -/
theorem exists_known_of_reshape {known : List Nat} {target : List Int}
    (h : reshape (known.map .fixed) target = .ok out) :
    ∃ dims : List Nat, out = dims.map .fixed := by
  by_cases hmem : -1 ∈ target
  · obtain ⟨fronts, backs, rfl, hfronts⟩ := List.eq_append_cons_of_mem hmem
    obtain ⟨hbacks, front, inferred, back, rfl, hfront, hback, hinferred⟩ :=
      reshape_eq_ok_of_split hfronts h
    obtain ⟨front, rfl⟩ := exists_known_of_resolves hfronts hfront
    obtain ⟨back, rfl⟩ := exists_known_of_resolves hbacks hback
    have htotal := count?_map_fixed known
    have hothers := count?_map_fixed (front ++ back)
    rw [List.map_append] at hothers
    cases hinferred with
    | quotient => exact ⟨front ++ _ :: back, by rw [List.map_append, List.map_cons]⟩
    | unknown hunknown =>
      rw [htotal, hothers] at hunknown
      rcases hunknown with hnone | hnone <;> cases hnone
  · exact exists_known_of_resolves hmem (reshape_eq_ok_of_notMem hmem h)

/-- What is done with known extents has known extents. -/
theorem stable_bothKnown : Stable Dimension.BothKnown fun _ => True where
  fixed n := ⟨n, rfl, rfl⟩
  perm _ h := h
  broadcast ha hb h h' := by
    obtain ⟨n, rfl, rfl⟩ := ha
    obtain ⟨m, rfl, rfl⟩ := hb
    obtain rfl := Except.ok.inj (h.symm.trans h')
    unfold broadcastExtent at h
    split_ifs at h
    · exact ⟨n, (Except.ok.inj h).symm, (Except.ok.inj h).symm⟩
    · exact ⟨m, (Except.ok.inj h).symm, (Except.ok.inj h).symm⟩
    · exact ⟨n, (Except.ok.inj h).symm, (Except.ok.inj h).symm⟩
  pad _ _ ha h h' := by
    obtain ⟨n, rfl, rfl⟩ := ha
    obtain rfl := Except.ok.inj (h.symm.trans h')
    unfold padExtent at h
    dsimp only at h
    split at h
    · cases h
    · exact ⟨_, (Except.ok.inj h).symm, (Except.ok.inj h).symm⟩
  reshape _ _ hdims h h' := by
    obtain ⟨known, rfl, rfl⟩ := exists_of_forall₂_bothKnown hdims
    obtain rfl := Except.ok.inj (h.symm.trans h')
    obtain ⟨dims, rfl⟩ := exists_known_of_reshape h
    exact forall₂_bothKnown

end Inference

/-- A layer over known extents has known extents. -/
theorem LayerKind.exists_known_of_infer {kind : LayerKind} {e : TensorSig} {es : List TensorSig}
    (h : kind.infer es = .ok e)
    (hops : ∀ x ∈ es, ∃ dims, x = .of x.dtype dims) : ∃ dims, e = .of e.dtype dims := by
  have hself : List.Forall₂ (TensorSig.Along Dimension.BothKnown) es es := by
    refine List.forall₂_same.mpr fun x hx => ?_
    obtain ⟨dims, hdims⟩ := hops x hx
    rw [hdims]
    exact ⟨rfl, Inference.forall₂_bothKnown⟩
  obtain ⟨known, hknown, -⟩ := Inference.exists_of_forall₂_bothKnown
    (infer_along Inference.stable_bothKnown hself (fun _ _ => trivial) trivial h h).2
  exact ⟨known, congrArg (TensorSig.mk e.dtype) hknown⟩

/-! ## Larger extents -/

/-- Known extents, the first one no larger than the second one. -/
inductive Dimension.AtMost : Dimension → Dimension → Prop where
  | fixed {n m : Nat} (h : n ≤ m) : AtMost (.fixed n) (.fixed m)

namespace Inference

variable {dims dims' out out' : List Dimension} {ns ns' : List Nat}

theorem forall₂_atMost_map_fixed : List.Forall₂ Dimension.AtMost (ns.map .fixed) (ns'.map .fixed) ↔
    List.Forall₂ (· ≤ ·) ns ns' := by
  rw [List.forall₂_map_left_iff, List.forall₂_map_right_iff]
  exact ⟨fun h => h.imp fun _ _ ⟨hle⟩ => hle, fun h => h.imp fun _ _ => .fixed⟩

theorem forall₂_atMost_iff : List.Forall₂ Dimension.AtMost dims dims' ↔
    ∃ ns ns' : List Nat, dims = ns.map .fixed ∧ dims' = ns'.map .fixed ∧
      List.Forall₂ (· ≤ ·) ns ns' := by
  constructor
  · intro h
    induction h with
    | nil => exact ⟨[], [], rfl, rfl, .nil⟩
    | @cons a b _ _ hdim _ ih =>
      obtain ⟨ns, ns', rfl, rfl, hle⟩ := ih
      obtain ⟨h⟩ := hdim
      exact ⟨_ :: ns, _ :: ns', rfl, rfl, .cons h hle⟩
  · rintro ⟨ns, ns', rfl, rfl, hle⟩
    exact forall₂_atMost_map_fixed.mpr hle

/-- What the entries of a target from an axis on leave of a larger operand is not less, compared
crosswise. -/
theorem cross_le_cons {axis k k' rest rest' : Nat} (hle : List.Forall₂ (· ≤ ·) ns ns')
    (hentry : k = k' ∨ ns[axis]? = some k ∧ ns'[axis]? = some k')
    (hrest : (ns.drop (axis + 1)).prod * rest' ≤ (ns'.drop (axis + 1)).prod * rest) :
    (ns.drop axis).prod * (k' * rest') ≤ (ns'.drop axis).prod * (k * rest) := by
  have hlen := hle.length_eq
  by_cases haxis : axis < ns.length
  · have haxis' : axis < ns'.length := hlen ▸ haxis
    have hextent : ns[axis] ≤ ns'[axis] := (List.forall₂_iff_get.mp hle).2 axis haxis haxis'
    rw [List.drop_eq_getElem_cons haxis, List.drop_eq_getElem_cons haxis', List.prod_cons,
      List.prod_cons]
    rcases hentry with rfl | ⟨hk, hk'⟩
    · calc ns[axis] * (ns.drop (axis + 1)).prod * (k * rest')
          = ns[axis] * k * ((ns.drop (axis + 1)).prod * rest') := by ring
        _ ≤ ns'[axis] * k * ((ns'.drop (axis + 1)).prod * rest) := by gcongr
        _ = ns'[axis] * (ns'.drop (axis + 1)).prod * (k * rest) := by ring
    · obtain rfl : ns[axis] = k := by simpa [haxis] using hk
      obtain rfl : ns'[axis] = k' := by simpa [haxis'] using hk'
      calc ns[axis] * (ns.drop (axis + 1)).prod * (ns'[axis] * rest')
          = ns[axis] * ns'[axis] * ((ns.drop (axis + 1)).prod * rest') := by ring
        _ ≤ ns[axis] * ns'[axis] * ((ns'.drop (axis + 1)).prod * rest) := by gcongr
        _ = ns'[axis] * (ns'.drop (axis + 1)).prod * (ns[axis] * rest) := by ring
  · have haxis' : ¬ axis < ns'.length := hlen ▸ haxis
    rw [List.drop_eq_nil_of_le (by omega), List.drop_eq_nil_of_le (by omega)] at hrest ⊢
    rcases hentry with rfl | ⟨hk, -⟩
    · calc ([] : List Nat).prod * (k * rest') = k * (([] : List Nat).prod * rest') := by ring
        _ ≤ k * (([] : List Nat).prod * rest) := by gcongr
        _ = ([] : List Nat).prod * (k * rest) := by ring
    · rw [List.getElem?_eq_none (by omega)] at hk
      cases hk

theorem cross_le_append {part : List Int} {axis rest rest' : Nat} {known known' : List Nat}
    (hle : List.Forall₂ (· ≤ ·) ns ns')
    (h : List.Forall₂ (Resolves (ns.map .fixed)) (part.zipIdx axis) (known.map .fixed))
    (h' : List.Forall₂ (Resolves (ns'.map .fixed)) (part.zipIdx axis) (known'.map .fixed))
    (hrest : (ns.drop (axis + part.length)).prod * rest' ≤
      (ns'.drop (axis + part.length)).prod * rest) :
    (ns.drop axis).prod * (known'.prod * rest') ≤ (ns'.drop axis).prod * (known.prod * rest) := by
  induction part generalizing axis known known' with
  | nil =>
    obtain rfl : known = [] := by simpa using List.forall₂_nil_left_iff.mp h
    obtain rfl : known' = [] := by simpa using List.forall₂_nil_left_iff.mp h'
    simpa using hrest
  | cons extent part ih =>
    obtain _ | ⟨k, known⟩ := known
    · cases h
    obtain _ | ⟨k', known'⟩ := known'
    · cases h'
    obtain _ | ⟨hk, hknown⟩ := h
    obtain _ | ⟨hk', hknown'⟩ := h'
    have hlater := ih hknown hknown' (by simpa [Nat.add_assoc, Nat.add_comm 1] using hrest)
    have hentry : k = k' ∨ ns[axis]? = some k ∧ ns'[axis]? = some k' := by
      cases hk with
      | given _ hpos =>
        cases hk' with
        | given => exact .inl rfl
        | copied => cases hpos
      | copied hcopied =>
        cases hk' with
        | given _ hpos => cases hpos
        | copied hcopied' => exact .inr ⟨by simpa using hcopied, by simpa using hcopied'⟩
    rw [List.prod_cons, List.prod_cons, Nat.mul_assoc, Nat.mul_assoc]
    exact cross_le_cons hle hentry hlater

/-- Around an entry that is inferred, and so counts as one, the numbers of elements compare
crosswise. -/
theorem cross_le_split {fronts backs : List Int} {f f' b b' : List Nat}
    (hle : List.Forall₂ (· ≤ ·) ns ns')
    (hfront : List.Forall₂ (Resolves (ns.map .fixed)) fronts.zipIdx (f.map .fixed))
    (hfront' : List.Forall₂ (Resolves (ns'.map .fixed)) fronts.zipIdx (f'.map .fixed))
    (hback : List.Forall₂ (Resolves (ns.map .fixed)) (backs.zipIdx (fronts.length + 1))
      (b.map .fixed))
    (hback' : List.Forall₂ (Resolves (ns'.map .fixed)) (backs.zipIdx (fronts.length + 1))
      (b'.map .fixed)) :
    ns.prod * (f' ++ b').prod ≤ ns'.prod * (f ++ b).prod := by
  have hlast : (ns.drop (fronts.length + 1 + backs.length)).prod * 1 ≤
      (ns'.drop (fronts.length + 1 + backs.length)).prod * 1 := by
    rw [Nat.mul_one, Nat.mul_one]
    exact List.Forall₂.prod_le_prod' (List.forall₂_drop _ hle)
  have hlater : (ns.drop fronts.length).prod * (1 * (b'.prod * 1)) ≤
      (ns'.drop fronts.length).prod * (1 * (b.prod * 1)) :=
    cross_le_cons hle (.inl rfl) (cross_le_append hle hback hback' hlast)
  have hcross : ns.prod * (f'.prod * (1 * (b'.prod * 1))) ≤
      ns'.prod * (f.prod * (1 * (b.prod * 1))) :=
    @cross_le_append ns ns' fronts 0 _ _ f f' hle hfront hfront' (by rwa [Nat.zero_add])
  simpa using hcross

theorem inferred_of_infers {known : List Nat} {inferred : Dimension}
    (hsmall : volume ns < 2 ^ 64) (hothers : volume known < 2 ^ 64)
    (h : Infers (ns.map .fixed) (known.map .fixed) inferred) :
    known.prod ≠ 0 ∧ ∃ q, ns.prod = known.prod * q ∧ inferred = .fixed q := by
  cases h with
  | quotient htotal hknown hne hdivides =>
    rw [count?_map_fixed, word_of_volume ‹_›, Option.some.injEq, elementCount_eq_prod]
      at htotal hknown
    subst htotal hknown
    exact ⟨hne, _, (Nat.mul_div_cancel' (Nat.dvd_of_mod_eq_zero hdivides)).symm, rfl⟩
  | unknown hunknown =>
    rw [count?_map_fixed, count?_map_fixed] at hunknown
    rcases hunknown with h | h <;> cases h

/-- A larger operand is reshaped to larger extents. -/
theorem reshape_atMost {target : List Int} {shape : List Nat} (hle : List.Forall₂ (· ≤ ·) ns ns')
    (hsmall : volume ns' < 2 ^ 64) (hlast : volume shape < 2 ^ 64)
    (h : reshape (ns.map .fixed) target = .ok out)
    (h' : reshape (ns'.map .fixed) target = .ok (shape.map .fixed)) :
    List.Forall₂ Dimension.AtMost out (shape.map .fixed) := by
  have hdims : List.Forall₂ Dimension.AtMost (ns.map .fixed) (ns'.map .fixed) :=
    forall₂_atMost_iff.mpr ⟨ns, ns', rfl, rfl, hle⟩
  have hself : ∀ n, Dimension.AtMost (.fixed n) (.fixed n) := fun n => .fixed (Nat.le_refl n)
  by_cases hmem : -1 ∈ target
  · obtain ⟨fronts, backs, rfl, hfronts⟩ := List.eq_append_cons_of_mem hmem
    obtain ⟨hbacks, front, inferred, back, rfl, hfront, hback, hinferred⟩ :=
      reshape_eq_ok_of_split hfronts h
    obtain ⟨-, front', inferred', back', hout', hfront', hback', hinferred'⟩ :=
      reshape_eq_ok_of_split hfronts h'
    have hfrontLe := forall₂_of_resolves hself hdims hfronts hfront hfront'
    have hbackLe := forall₂_of_resolves hself hdims hbacks hback hback'
    rw [hout']
    refine List.rel_append hfrontLe (.cons ?_ hbackLe)
    obtain ⟨f, rfl⟩ := exists_known_of_resolves hfronts hfront
    obtain ⟨f', rfl⟩ := exists_known_of_resolves hfronts hfront'
    obtain ⟨b, rfl⟩ := exists_known_of_resolves hbacks hback
    obtain ⟨b', rfl⟩ := exists_known_of_resolves hbacks hback'
    -- The extents beside the inferred one are small, as those of the whole result are.
    have hothers' : volume (f' ++ b') < 2 ^ 64 := by
      obtain ⟨before, rest, rfl, hbefore, hrest⟩ := List.map_eq_append_iff.mp hout'
      obtain ⟨middle, after, rfl, -, hafter⟩ := List.map_eq_cons_iff.mp hrest
      obtain rfl := List.map_injective_iff.mpr @Dimension.fixed.inj hbefore
      obtain rfl := List.map_injective_iff.mpr @Dimension.fixed.inj hafter
      refine (volume_le_of_sublist ?_).trans_lt hlast
      exact (List.Sublist.refl _).append (List.sublist_cons_self _ _)
    have hothers : volume (f ++ b) < 2 ^ 64 :=
      (volume_le (List.rel_append (forall₂_atMost_map_fixed.mp hfrontLe)
        (forall₂_atMost_map_fixed.mp hbackLe))).trans_lt hothers'
    rw [← List.map_append] at hinferred hinferred'
    obtain ⟨hne, q, hq, rfl⟩ :=
      inferred_of_infers ((volume_le hle).trans_lt hsmall) hothers hinferred
    obtain ⟨hne', q', hq', rfl⟩ := inferred_of_infers hsmall hothers' hinferred'
    have hcross := cross_le_split hle hfront hfront' hback hback'
    refine .fixed (Nat.le_of_mul_le_mul_left ?_ (Nat.pos_of_ne_zero (Nat.mul_ne_zero hne hne')))
    calc (f ++ b).prod * (f' ++ b').prod * q
        = ns.prod * (f' ++ b').prod := by rw [hq]; ring
      _ ≤ ns'.prod * (f ++ b).prod := hcross
      _ = (f ++ b).prod * (f' ++ b').prod * q' := by rw [hq']; ring
  · exact forall₂_of_resolves hself hdims hmem (reshape_eq_ok_of_notMem hmem h)
      (reshape_eq_ok_of_notMem hmem h')

theorem exists_of_broadcastExtent {n m : Nat} {c : Dimension}
    (h : broadcastExtent (.fixed n) (.fixed m) = .ok c) :
    ∃ k, c = .fixed k ∧ (n = m ∧ k = n ∨ n = 1 ∧ k = m ∨ m = 1 ∧ k = n) := by
  unfold broadcastExtent at h
  simp only [Dimension.fixed.injEq] at h
  split at h
  · next heq => exact ⟨n, (Except.ok.inj h).symm, .inl ⟨heq, rfl⟩⟩
  · split at h
    · next hone => exact ⟨m, (Except.ok.inj h).symm, .inr (.inl ⟨hone, rfl⟩)⟩
    · split at h
      · next hone => exact ⟨n, (Except.ok.inj h).symm, .inr (.inr ⟨hone, rfl⟩)⟩
      · cases h

/-- A larger extent is padded to a larger one, if only one of them is an extent of a machine. -/
theorem padExtent_atMost {before after : Int} {n m : Nat} {c c' : Dimension} (hle : n ≤ m)
    (hsmall : m < 2 ^ 63) (h : padExtent before after (.fixed n) = .ok c)
    (h' : padExtent before after (.fixed m) = .ok c') : c.AtMost c' := by
  unfold padExtent at h h'
  dsimp only at h h'
  split at h
  · cases h
  next hfits =>
  split at h'
  · cases h'
  next hfits' =>
  obtain rfl := Except.ok.inj h
  obtain rfl := Except.ok.inj h'
  obtain ⟨k, hk⟩ := Kernel.exists_signed_eq (n + before + after)
  obtain ⟨k', hk'⟩ := Kernel.exists_signed_eq (m + before + after)
  have hlt := Kernel.signed_lt (n + before + after)
  exact .fixed (by omega)

/-- Known extents of a tensor whose elements can be counted by a signed machine integer. -/
def Small (dims : List Dimension) : Prop :=
  ∃ ns : List Nat, dims = ns.map .fixed ∧ volume ns < 2 ^ 63

theorem Small.of_le (h : Small dims') (hle : List.Forall₂ Dimension.AtMost dims dims') :
    Small dims := by
  obtain ⟨ns, ns', rfl, rfl, hextents⟩ := forall₂_atMost_iff.mp hle
  obtain ⟨known, hknown, hvolume⟩ := h
  obtain rfl := List.map_injective_iff.mpr @Dimension.fixed.inj hknown
  exact ⟨ns, rfl, (volume_le hextents).trans_lt hvolume⟩

/-- Larger operands give larger results. -/
theorem stable_atMost : Stable Dimension.AtMost Small where
  fixed n := .fixed (Nat.le_refl n)
  perm h hsmall := by
    obtain ⟨ns, rfl, hvolume⟩ := hsmall
    obtain ⟨moved, rfl, hmoved⟩ :=
      (congrFun₂ (List.eq_map_comp_perm Dimension.fixed) _ ns).mpr h.symm
    exact ⟨moved, rfl, volume_perm hmoved ▸ hvolume⟩
  broadcast ha hb h h' := by
    obtain ⟨ha⟩ := ha
    obtain ⟨hb⟩ := hb
    obtain ⟨k, rfl, hk⟩ := exists_of_broadcastExtent h
    obtain ⟨k', rfl, hk'⟩ := exists_of_broadcastExtent h'
    exact .fixed (by omega)
  pad hsmall hmem ha h h' := by
    obtain ⟨ns, rfl, hvolume⟩ := hsmall
    obtain ⟨ha⟩ := ha
    obtain ⟨m, hm, hfixed⟩ := List.mem_map.mp hmem
    obtain rfl := Dimension.fixed.inj hfixed
    exact padExtent_atMost ha ((le_volume_of_mem hm).trans_lt hvolume) h h'
  reshape hsmall hlast hdims h h' := by
    obtain ⟨ns, ns', rfl, rfl, hle⟩ := forall₂_atMost_iff.mp hdims
    obtain ⟨known, hknown, hvolume⟩ := hsmall
    obtain rfl := List.map_injective_iff.mpr @Dimension.fixed.inj hknown
    obtain ⟨shape, rfl, hshape⟩ := hlast
    exact reshape_atMost hle (by omega) (by omega) h h'

end Inference

end HybridGraph
