import HybridGraph.Fidelity.Check
import HybridGraph.Proofs.Number.Order
import HybridGraph.Proofs.Outcome
/-!
# Verdicts on fidelity

A comparison passes if and only if both sides run, answer equally many tensors, and every two of
these are `Tolerated`: they have equally many elements, which are finite and within the bound, or
the bound is infinite and nothing is asked of them.

    compareRuns threshold expected actual = .passed outputs ↔
      outputs = expected.zipIdx.map (Deviation.compareWith threshold actual) ∧
        List.Forall₂ (Tolerated threshold) expected actual

The second case is not empty: an infinite element on either side makes the bound infinite, and then
any elements of the other side are tolerated.
-/

namespace HybridGraph

variable {threshold : Float} {expected actual : Tensor} {a b z : Float}

/-! ## Distances -/

theorem isNaN_elementDistance : (elementDistance a b).isNaN = false := by
  unfold elementDistance
  by_cases h : (a - b).abs.isNaN = true
  · rw [if_pos h]
    rfl
  · rw [if_neg h]
    exact Bool.eq_false_iff.mpr h

/-- Elements within a finite bound are finite themselves. -/
theorem elementDistance_le_iff (hz : ¬ Number.infinity ≤ z) :
    elementDistance a b ≤ z ↔ a.isFinite = true ∧ b.isFinite = true ∧ (a - b).abs ≤ z := by
  unfold elementDistance
  by_cases hnum : (a - b).abs.isNaN = true
  · rw [if_pos hnum]
    exact iff_of_false hz fun h => Bool.eq_false_iff.mp (Number.le_iff.mp h.2.2).1 hnum
  · rw [if_neg hnum]
    refine ⟨fun hle => ?_, fun h => h.2.2⟩
    have hfinite : ¬ (a.isFinite = false ∨ b.isFinite = false) := by
      intro h
      rcases Number.isNaN_or_isInf_sub h with hsub | hsub
      · exact hnum (Number.isNaN_abs hsub)
      · exact hz (Number.le_trans (Number.infinity_le_abs hsub) hle)
    obtain ⟨ha, hb⟩ := not_or.mp hfinite
    exact ⟨Bool.not_eq_false _ ▸ ha, Bool.not_eq_false _ ▸ hb, hle⟩

theorem maxDistance_le_iff {xs ys : List Float} :
    maxDistance xs ys ≤ z ↔ 0.0 ≤ z ∧ ∀ pair ∈ xs.zip ys, elementDistance pair.1 pair.2 ≤ z := by
  unfold maxDistance
  rw [← List.map_uncurry_zip_eq_zipWith, Number.foldl_larger_le_iff rfl, List.forall_mem_map]
  · rfl
  · rw [List.forall_mem_map]
    exact fun pair _ => isNaN_elementDistance

/-- Elements that are finite and within a bound, or any elements if the bound is infinite. -/
def Close (bound : Float) (xs ys : List Float) : Prop :=
  Number.infinity ≤ bound ∨ bound.isFinite = true ∧ 0.0 ≤ bound ∧ ∀ pair ∈ xs.zip ys,
    pair.1.isFinite = true ∧ pair.2.isFinite = true ∧ (pair.1 - pair.2).abs ≤ bound

theorem maxDistance_le_iff_close {xs ys : List Float} : maxDistance xs ys ≤ z ↔ Close z xs ys := by
  unfold Close
  rw [maxDistance_le_iff]
  by_cases hz : Number.infinity ≤ z
  · have hzero : 0.0 ≤ z := Number.le_of_infinity_le rfl hz
    simp only [hz, true_or, iff_true]
    exact ⟨hzero, fun pair _ => Number.le_of_infinity_le isNaN_elementDistance hz⟩
  · simp only [hz, false_or, elementDistance_le_iff hz]
    constructor
    · rintro ⟨hzero, hall⟩
      exact ⟨(Number.isFinite_iff_of_zero_le hzero).mpr hz, hzero, hall⟩
    · rintro ⟨-, hzero, hall⟩
      exact ⟨hzero, hall⟩

/-! ## Outputs -/

/-- The difference up to which the elements of two tensors are tolerated. -/
def Tensor.bound (threshold : Float) (expected actual : Tensor) : Float :=
  threshold * Number.larger expected.maxMagnitude actual.maxMagnitude

/-- What a comparison asks of two tensors. -/
structure Tolerated (threshold : Float) (expected actual : Tensor) : Prop where
  sameSize : expected.doubles.size = actual.doubles.size
  close : Close (expected.bound threshold actual) expected.doubles.toList actual.doubles.toList

namespace Deviation

theorem not_within_incomparable (output : Nat) : (incomparable output).within = false :=
  decide_eq_false Number.not_infinity_le_zero

/-- An output is within its tolerance if and only if the two tensors are tolerated. -/
theorem within_compare {output : Nat} :
    (compare threshold output expected actual).within = true ↔
      Tolerated threshold expected actual := by
  unfold compare
  by_cases hsize : expected.doubles.size = actual.doubles.size
  · rw [if_neg (not_not_intro hsize)]
    refine decide_eq_true_iff.trans (maxDistance_le_iff_close.trans ⟨fun h => ⟨hsize, h⟩, ?_⟩)
    exact fun h => h.close
  · rw [if_pos hsize, not_within_incomparable]
    exact iff_of_false Bool.false_ne_true fun h => hsize h.sameSize

/-- Whatever the other side answers at its place. -/
theorem within_compareWith {others : List Tensor} {entry : Tensor × Nat} :
    (compareWith threshold others entry).within = true ↔
      ∃ other, others[entry.2]? = some other ∧ Tolerated threshold entry.1 other := by
  unfold compareWith
  cases h : others[entry.2]? with
  | none => simp [not_within_incomparable]
  | some other => simp [within_compare]

end Deviation

/-- Runs are accepted if and only if they answer equally many tensors, tolerated in pairs. -/
theorem compareRuns_eq_passed {expected actual : List Tensor} {outputs : List Deviation} :
    compareRuns threshold expected actual = .passed outputs ↔
      outputs = expected.zipIdx.map (Deviation.compareWith threshold actual) ∧
        List.Forall₂ (Tolerated threshold) expected actual := by
  have hall : (expected.zipIdx.map (Deviation.compareWith threshold actual)).all
        Deviation.within = true ↔
      ∀ (i : Nat) t, expected[i]? = some t →
        ∃ other, actual[i]? = some other ∧ Tolerated threshold t other := by
    simp only [List.all_eq_true, List.forall_mem_map, Deviation.within_compareWith,
      Prod.forall, List.mem_zipIdx_iff_getElem?]
    exact forall_comm
  unfold compareRuns
  simp only [Outcome.forall₂_iff_getElem?, ← hall, Bool.and_eq_true, beq_iff_eq]
  by_cases h : (expected.zipIdx.map (Deviation.compareWith threshold actual)).all
      Deviation.within = true ∧ actual.length = expected.length
  · rw [if_pos h, FidelityOutcome.passed.injEq]
    exact ⟨fun heq => ⟨heq.symm, h.2, h.1⟩, fun heq => heq.1.symm⟩
  · rw [if_neg h]
    refine iff_of_false ?_ fun hpassed => h ⟨hpassed.2.2, hpassed.2.1⟩
    rintro ⟨⟩

/-! ## Programs -/

variable {A : Accelerator} {check : FidelityCheck} {c : CompileConfig} {reference : Graph}
  {p : HybridProgram A} {interpret : Interpreter}

/-- A program passes if and only if it is compared and its outputs are tolerated. -/
theorem FidelityCheck.run_eq_passed {outputs : List Deviation} :
    check.run c reference p interpret = .passed outputs ↔
      c.skipReason? = none ∧ ∃ expected actual,
        reference.run interpret (check.sampler.inputs c.inputSpecs) = .ok expected ∧
        p.run interpret (check.sampler.inputs c.inputSpecs) = .ok actual ∧
        outputs = expected.zipIdx.map (Deviation.compareWith check.threshold actual) ∧
        List.Forall₂ (Tolerated check.threshold) expected actual := by
  unfold run
  cases hskip : c.skipReason? with
  | some reason => simp
  | none =>
    dsimp only
    cases reference.run interpret (check.sampler.inputs c.inputSpecs) with
    | error e => simp
    | ok expected =>
      cases p.run interpret (check.sampler.inputs c.inputSpecs) with
      | error e => simp
      | ok actual => simp [compareRuns_eq_passed]

/-! ## Infinite elements -/

theorem infinity_le_maxMagnitude {t : Tensor} {x : Float} (hx : x ∈ t.doubles.toList)
    (hinf : x.isInf = true) : Number.infinity ≤ t.maxMagnitude := by
  unfold Tensor.maxMagnitude
  rw [← Array.foldl_toList, ← List.foldl_map, Number.le_foldl_larger_iff]
  exact .inr ⟨x.abs, List.mem_map_of_mem hx, Number.infinity_le_abs hinf⟩

/-- An infinite element on one side makes the bound infinite. -/
theorem Tensor.infinity_le_bound (hpos : 0.0 < threshold) {x : Float}
    (hx : x ∈ expected.doubles.toList ∨ x ∈ actual.doubles.toList) (hinf : x.isInf = true) :
    Number.infinity ≤ expected.bound threshold actual := by
  refine Number.infinity_le_mul hpos (Number.le_larger_iff.mpr ?_)
  exact hx.imp (fun hx => infinity_le_maxMagnitude hx hinf)
    fun hx => infinity_le_maxMagnitude hx hinf

/-- Two tensors of one size are tolerated as soon as an element of either is infinite, whatever
their other elements are. -/
theorem Tolerated.of_isInf (hpos : 0.0 < threshold)
    (hsize : expected.doubles.size = actual.doubles.size) {x : Float}
    (hx : x ∈ expected.doubles.toList ∨ x ∈ actual.doubles.toList) (hinf : x.isInf = true) :
    Tolerated threshold expected actual :=
  ⟨hsize, .inl (Tensor.infinity_le_bound hpos hx hinf)⟩

/-- Finite elements and infinite ones are tolerated as equal. -/
example : Tolerated 2e-5 ⟨.f32, [1], .f32 #[1]⟩ ⟨.f32, [1], .f32 #[1 / 0]⟩ :=
  .of_isInf (by decide) (by simp [Tensor.doubles])
    (.inr (show Number.widen (1 / 0) ∈ _ by simp [Tensor.doubles])) rfl

end HybridGraph
