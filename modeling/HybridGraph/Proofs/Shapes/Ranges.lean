import HybridGraph.Proofs.Engine.Contract
import HybridGraph.Proofs.Execute.Monotone
import HybridGraph.Shapes.Analysis
/-!
# Measured ranges are in order

Shape analysis puts the extents of three runs together and does not compare them.  They are in
order all the same where the runs are, that is, where no attribute is computed
(`Graph.atMost_trace`): then every shape of the table passes the check that input contracts pass,
unless a tensor is so large that its elements cannot be counted.

    g.SingleAssignment → g.ConstantAttributes → (∀ spec ∈ specs, spec.check = .ok ()) →
      g.SmallAt specs ShapeSpec.opt → g.SmallAt specs ShapeSpec.max →
      ∀ entry ∈ g.shapeTable interpret specs, entry.2.shape.check = .ok ()       (check_shapeTable)

An axis that is an extent of another tensor turns the table upside down: the larger the input, the
later the axis that is summed over.
-/

namespace HybridGraph

/-! ## Ranges in order -/

namespace ShapeSpec

variable {lo mid hi : List Nat}

theorem firstInverted?_eq_none {axis : Nat} (hlo : List.Forall₂ (· ≤ ·) lo mid)
    (hhi : List.Forall₂ (· ≤ ·) mid hi) : firstInverted? axis lo mid hi = none := by
  induction hlo generalizing hi axis with
  | nil =>
    obtain rfl := List.forall₂_nil_left_iff.mp hhi
    rfl
  | cons hle _ ih =>
    obtain _ | ⟨hle', hrest⟩ := hhi
    exact (if_pos ⟨hle, hle'⟩).trans (ih hrest)

/-- Three measured shapes in order are a range. -/
theorem check_ofMeasured (hlo : List.Forall₂ (· ≤ ·) lo mid) (hhi : List.Forall₂ (· ≤ ·) mid hi) :
    (ofMeasured lo mid hi).check = .ok () := by
  unfold ofMeasured
  split
  · rfl
  · have hranks : ¬ (lo.length ≠ mid.length ∨ mid.length ≠ hi.length) := by
      rw [hlo.length_eq, hhi.length_eq]
      simp
    unfold check
    dsimp only
    rw [if_neg hranks, firstInverted?_eq_none hlo hhi]

end ShapeSpec

/-! ## Entries of a table -/

namespace ShapeTable

theorem mem_insert {v : ValueId} {shape : ValueShape} {table : ShapeTable}
    {entry : ValueId × ValueShape} (h : entry ∈ table.insert v shape) :
    entry = (v, shape) ∨ entry ∈ table := by
  induction table with
  | nil => exact .inl (List.mem_singleton.mp h)
  | cons held rest ih =>
    obtain ⟨w, other⟩ := held
    unfold insert at h
    split at h
    · exact List.mem_cons.mp h
    · split at h
      · exact (List.mem_cons.mp h).imp_right (List.mem_cons_of_mem _)
      · rcases List.mem_cons.mp h with rfl | h
        · exact .inr List.mem_cons_self
        · exact (ih h).imp_right (List.mem_cons_of_mem _)

end ShapeTable

namespace Measurement

/-- A measured tensor was bound. -/
theorem exists_read_of_lookup {bound : Bindings} {v : ValueId} {m : DType × List Nat}
    (hnodup : (bound.map Prod.fst).Nodup) (h : (ofBindings bound).lookup v = some m) :
    ∃ t : Tensor, bound.read v = .ok (.tensor t) ∧ t.dims = m.2 := by
  obtain ⟨front, back, hsplit, -⟩ := List.lookup_eq_some_iff.mp h
  have hmem : (v, m) ∈ ofBindings bound := hsplit ▸ List.mem_append_right _ List.mem_cons_self
  obtain ⟨⟨w, x⟩, hx, hentry⟩ := List.mem_filterMap.mp hmem
  cases x with
  | tensor t =>
    cases hentry
    exact ⟨t, Bindings.read_of_mem hnodup hx, rfl⟩
  | scalar a => cases hentry

end Measurement

namespace Graph

open Reference Outcome

variable {g : Graph} {specs : List InputSpec} {v : ValueId} {p : ValueShape → Prop}

/-- What holds of the contracts holds of the shapes of the inputs. -/
theorem of_mem_declaredShapes (h : ∀ spec ∈ specs, p ⟨spec.dtype, spec.shape⟩) :
    ∀ entry ∈ g.declaredShapes specs, p entry.2 := by
  unfold declaredShapes
  refine List.foldlRecOn (motive := fun table : ShapeTable => ∀ entry ∈ table, p entry.2) _ _
    (by simp) fun table htable pair hpair entry hentry => ?_
  rcases ShapeTable.mem_insert hentry with rfl | hentry
  · exact h _ (List.of_mem_zip hpair).2
  · exact htable entry hentry

/-- What holds of the contracts and of the measured shapes holds of the table. -/
theorem of_mem_shapeTable {step : Interpreter} {mid : Measurement}
    (hmid : g.measure step specs ShapeSpec.opt = mid)
    (hspecs : ∀ spec ∈ specs, p ⟨spec.dtype, spec.shape⟩)
    (hmeasured : ∀ lo hi v shape, (lo = mid ∨ lo = g.measure step specs ShapeSpec.min) →
      (hi = mid ∨ hi = g.measure step specs ShapeSpec.max) →
        measuredShape? lo mid hi v = some shape → p shape) :
    ∀ entry ∈ g.shapeTable step specs, p entry.2 := by
  unfold shapeTable
  rw [hmid]
  refine List.foldlRecOn (motive := fun table : ShapeTable => ∀ entry ∈ table, p entry.2) _ _
    (of_mem_declaredShapes hspecs) ?_
  rintro table htable ⟨v, m⟩ - entry hentry
  dsimp only at hentry
  split at hentry
  · exact htable entry hentry
  · split at hentry
    · next shape hshape =>
      rcases ShapeTable.mem_insert hentry with rfl | hentry
      · refine hmeasured _ _ v shape ?_ ?_ hshape
        · exact (ite_eq_or_eq _ _ _).symm
        · exact (ite_eq_or_eq _ _ _).symm
      · exact htable entry hentry
    · exact htable entry hentry

/-- In the run that is measured at the picked extents all elements can be counted. -/
def SmallAt (g : Graph) (specs : List InputSpec) (pick : ShapeSpec → List Nat) : Prop :=
  (g.trace interpret (specs.map fun spec => .ones spec.dtype (pick spec.shape))).Small

/-- Larger inputs are measured to have larger tensors. -/
theorem measure_le (hg : g.SingleAssignment) (hattrs : g.ConstantAttributes)
    {pick pick' : ShapeSpec → List Nat} {dims dims' : List Nat} (hsmall : g.SmallAt specs pick')
    (hle : ∀ spec ∈ specs, List.Forall₂ (· ≤ ·) (pick spec.shape) (pick' spec.shape))
    (h : (g.measure interpret specs pick).dims? v = some dims)
    (h' : (g.measure interpret specs pick').dims? v = some dims') :
    List.Forall₂ (· ≤ ·) dims dims' := by
  obtain ⟨m, hm, rfl⟩ := Option.map_eq_some_iff.mp h
  obtain ⟨m', hm', rfl⟩ := Option.map_eq_some_iff.mp h'
  obtain ⟨t, ht, hdims⟩ := Measurement.exists_read_of_lookup (nodup_trace hg _ _) hm
  obtain ⟨t', ht', hdims'⟩ := Measurement.exists_read_of_lookup (nodup_trace hg _ _) hm'
  have hinputs : List.Forall₂ Tensor.AtMost
      (specs.map fun spec => .ones spec.dtype (pick spec.shape))
      (specs.map fun spec => .ones spec.dtype (pick' spec.shape)) := by
    rw [List.forall₂_map_left_iff, List.forall₂_map_right_iff]
    exact List.forall₂_same.mpr hle
  obtain ⟨hordered⟩ := atMost_trace hg hattrs hinputs hsmall v _ _ ht ht'
  rw [← hdims, ← hdims']
  exact hordered

/-- Measured shapes in order pass the check. -/
theorem check_of_measuredShape? {lo mid hi : Measurement} {shape : ValueShape}
    (hlo : ∀ dims dims', lo.dims? v = some dims → mid.dims? v = some dims' →
      List.Forall₂ (· ≤ ·) dims dims')
    (hhi : ∀ dims dims', mid.dims? v = some dims → hi.dims? v = some dims' →
      List.Forall₂ (· ≤ ·) dims dims')
    (h : measuredShape? lo mid hi v = some shape) : shape.shape.check = .ok () := by
  obtain ⟨⟨dtype, opt⟩, hopt, h⟩ := Option.bind_eq_some_iff.mp h
  obtain ⟨min, hmin, h⟩ := Option.bind_eq_some_iff.mp h
  obtain ⟨max, hmax, h⟩ := Option.bind_eq_some_iff.mp h
  have hmid : mid.dims? v = some opt := congrArg (Option.map Prod.snd) hopt
  split at h
  · obtain rfl := Option.some.inj h
    exact ShapeSpec.check_ofMeasured (hlo min opt hmin hmid) (hhi opt max hmid hmax)
  · cases h

/-! ## Top theorem -/

/-- Where no attribute is computed, every shape of the table is a range in order. -/
theorem check_shapeTable (hg : g.SingleAssignment) (hattrs : g.ConstantAttributes)
    (hspecs : ∀ spec ∈ specs, spec.check = .ok ()) (htypical : g.SmallAt specs ShapeSpec.opt)
    (hlargest : g.SmallAt specs ShapeSpec.max) :
    ∀ entry ∈ g.shapeTable interpret specs, entry.2.shape.check = .ok () := by
  have hspans : ∀ spec ∈ specs, spec.shape.Spans spec.shape.opt :=
    fun spec h => ShapeSpec.spans_opt (mapError_eq_ok.mp (hspecs spec h))
  have hopt : ∀ spec ∈ specs, List.Forall₂ (· ≤ ·) spec.shape.opt spec.shape.opt :=
    fun _ _ => List.forall₂_same.mpr fun _ _ => Nat.le_refl _
  refine of_mem_shapeTable (p := fun shape => shape.shape.check = .ok ()) rfl
    (fun spec h => mapError_eq_ok.mp (hspecs spec h)) fun lo hi v shape hlo hhi hshape => ?_
  refine check_of_measuredShape? (fun dims dims' hdims hdims' => ?_)
    (fun dims dims' hdims hdims' => ?_) hshape
  · rcases hlo with rfl | rfl
    · exact measure_le hg hattrs htypical hopt hdims hdims'
    · exact measure_le hg hattrs htypical (fun spec h => (hspans spec h).1) hdims hdims'
  · rcases hhi with rfl | rfl
    · exact measure_le hg hattrs htypical hopt hdims hdims'
    · exact measure_le hg hattrs hlargest (fun spec h => (hspans spec h).2) hdims hdims'

/-- The second input summed over the axis that the extent of the first one names. -/
def summed : Graph where
  name := "summed"
  values := #[⟨.tensor .unknown, none⟩, ⟨.tensor .unknown, none⟩, ⟨.scalar .int, none⟩,
    ⟨.tensor .unknown, none⟩]
  nodes := [⟨⟨0⟩, .size, [⟨0⟩], [⟨2⟩], .ofList [("dim", .int 0)], none⟩,
    ⟨⟨1⟩, .sum, [⟨1⟩, ⟨2⟩], [⟨3⟩], .empty, none⟩]
  inputs := [⟨0⟩, ⟨1⟩]
  outputs := [⟨3⟩]
  nextNode := 2

-- A computed axis, and the smallest input has the largest sum.
example : summed.shapeTable interpret
    [{ shape := .ranged [0] [1] [1] }, { shape := .fixed [0, 1] }] =
      [(⟨0⟩, ⟨.f32, .ranged [0] [1] [1]⟩), (⟨1⟩, ⟨.f32, .fixed [0, 1]⟩),
        (⟨3⟩, ⟨.f32, .ranged [1] [0] [0]⟩)] := by decide +kernel

end Graph

end HybridGraph
