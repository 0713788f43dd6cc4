import HybridGraph.Compilation.Compile
import HybridGraph.Proofs.Engine.Contract
import HybridGraph.Proofs.Execute.Agreement
/-!
# Contracts and declared types

A compilation compares the contracts of the inputs with their declared types, and a run compares the
tensors with the declared types.  Both look at element types and ranks, so a tensor that keeps an
accepted contract is never refused for either.  Only a run looks at extents.  Hence every tensor
that keeps the contract is accepted exactly if the contract says at least as much about each extent
as the declared type does, and some tensor is exactly if the contract leaves room for the declared
extents:

    (∀ t, spec.Allows t → g.checkInput i v t = .ok ()) ↔
      Forall₂ Dimension.Refines spec.shape.dimensions declared                    (all_accepted_iff)
    (∃ t, spec.Allows t ∧ g.checkInput i v t = .ok ()) ↔
      Forall₂ Dimension.Meets declared (spec.shape.min.zip spec.shape.max)     (exists_accepted_iff)
-/

namespace HybridGraph

/-- The tensor has the element type of the contract and extents that it admits. -/
def InputSpec.Allows (spec : InputSpec) (t : Tensor) : Prop :=
  t.dtype = spec.dtype ∧ spec.shape.admits t.dims = true

/-! ## Extents -/

namespace Dimension

/-- Some extent between the bounds is allowed on the axis. -/
def Meets (d : Dimension) (bounds : Nat × Nat) : Prop :=
  ∃ n, bounds.1 ≤ n ∧ n ≤ bounds.2 ∧ d.Admits n

theorem Refines.admits {d e : Dimension} {n : Nat} (h : e.Refines d) (he : e.Admits n) :
    d.Admits n := by
  rcases h with rfl | rfl
  · exact trivial
  · exact he

/-- What allows both bounds says no more than the axis between them. -/
theorem refines_of_admits {d : Dimension} {lo hi : Nat} (hlo : d.Admits lo) (hhi : d.Admits hi) :
    (if lo = hi then fixed lo else dynamic).Refines d := by
  cases d with
  | dynamic => exact .inl rfl
  | fixed n =>
    obtain rfl : lo = n := hlo
    obtain rfl : hi = lo := hhi
    rw [if_pos rfl]
    exact .refl _

end Dimension

/-- Measured extents fit declared ones if each is allowed on its axis. -/
theorem fitsDeclared_eq_true {declared : List Dimension} {dims : List Nat} :
    fitsDeclared declared dims = true ↔ List.Forall₂ Dimension.Admits declared dims := by
  have hone : ∀ (d : Dimension) n, d.extent?.all (· == n) = true ↔ d.Admits n := by
    intro d n
    cases d with
    | fixed m =>
      rw [Dimension.extent?, Option.all_some, beq_iff_eq]
      exact eq_comm
    | dynamic => simp [Dimension.extent?, Dimension.Admits]
  rw [fitsDeclared, Bool.and_eq_true, beq_iff_eq, List.all_eq_true, List.forall₂_iff_zip]
  exact and_congr_right fun _ => ⟨fun h _ _ hmem => (hone _ _).mp (h _ hmem),
    fun h _ hmem => (hone _ _).mpr (h hmem)⟩

namespace ShapeSpec

variable {s : ShapeSpec} {declared : List Dimension}

/-- The bounds of a checked contract are admitted themselves. -/
theorem spans_bounds (h : s.check = .ok ()) : s.Spans s.min ∧ s.Spans s.max := by
  obtain ⟨hlo, hhi⟩ := spans_opt h
  have hle : List.Forall₂ (· ≤ ·) s.min s.max :=
    Outcome.forall₂_of_forall₂ hlo.flip hhi fun _ _ _ _ hlo hhi => Nat.le_trans hlo hhi
  have hself : ∀ ns : List Nat, List.Forall₂ (· ≤ ·) ns ns := fun ns =>
    List.forall₂_same.mpr fun _ _ => Nat.le_refl _
  exact ⟨⟨hself _, hle⟩, hle, hself _⟩

theorem refines_of_forall₂_admits {lo hi : List Nat}
    (hlo : List.Forall₂ Dimension.Admits declared lo)
    (hhi : List.Forall₂ Dimension.Admits declared hi) :
    List.Forall₂ Dimension.Refines
      (List.zipWith (fun a b => if a = b then .fixed a else .dynamic) lo hi) declared := by
  induction hlo generalizing hi with
  | nil =>
    obtain rfl := List.forall₂_nil_left_iff.mp hhi
    exact .nil
  | cons ha _ ih =>
    obtain ⟨b, his, hb, hrest, rfl⟩ := List.forall₂_cons_left_iff.mp hhi
    exact .cons (Dimension.refines_of_admits ha hb) (ih hrest)

/-- All admitted extents are allowed if and only if the contract says more about each axis. -/
theorem forall_admits_iff (h : s.check = .ok ()) :
    (∀ dims, s.Spans dims → List.Forall₂ Dimension.Admits declared dims) ↔
      List.Forall₂ Dimension.Refines s.dimensions declared := by
  constructor
  · intro hall
    obtain ⟨hmin, hmax⟩ := spans_bounds h
    rw [dimensions_eq]
    exact refines_of_forall₂_admits (hall _ hmin) (hall _ hmax)
  · intro hrefines dims hspans
    have hdims := hspans.refines
    rw [List.forall₂_map_left_iff] at hdims
    exact Outcome.forall₂_of_forall₂ hrefines hdims.flip fun axis _ d n hd hn =>
      Dimension.Refines.admits hd (Dimension.Refines.admits hn rfl)

theorem exists_between_iff {lo hi : List Nat} (hlen : lo.length = hi.length) :
    (∃ dims, List.Forall₂ (· ≤ ·) lo dims ∧ List.Forall₂ (· ≤ ·) dims hi ∧
      List.Forall₂ Dimension.Admits declared dims) ↔
        List.Forall₂ Dimension.Meets declared (lo.zip hi) := by
  constructor
  · rintro ⟨dims, hlo, hhi, hadmits⟩
    induction hadmits generalizing lo hi with
    | nil =>
      rw [List.forall₂_nil_right_iff.mp hlo]
      exact .nil
    | cons hn _ ih =>
      obtain ⟨a, los, ha, hlos, rfl⟩ := List.forall₂_cons_right_iff.mp hlo
      obtain ⟨b, his, hb, hhis, rfl⟩ := List.forall₂_cons_left_iff.mp hhi
      exact .cons ⟨_, ha, hb, hn⟩ (ih (Nat.succ.inj hlen) hlos hhis)
  · intro hmeets
    induction declared generalizing lo hi with
    | nil =>
      have hnil := List.forall₂_nil_left_iff.mp hmeets
      obtain ⟨rfl, rfl⟩ : lo = [] ∧ hi = [] := by
        rcases List.zip_eq_nil_iff.mp hnil with rfl | rfl
        · exact ⟨rfl, List.length_eq_zero_iff.mp hlen.symm⟩
        · exact ⟨List.length_eq_zero_iff.mp hlen, rfl⟩
      exact ⟨[], .nil, .nil, .nil⟩
    | cons d declared ih =>
      cases lo with
      | nil => cases hmeets
      | cons a los =>
        cases hi with
        | nil => cases hlen
        | cons b his =>
          obtain _ | ⟨⟨n, ha, hb, hn⟩, hrest⟩ := hmeets
          obtain ⟨dims, hlo, hhi, hadmits⟩ := ih (Nat.succ.inj hlen) hrest
          exact ⟨n :: dims, .cons ha hlo, .cons hb hhi, .cons hn hadmits⟩

end ShapeSpec

/-! ## Inputs -/

namespace Graph

variable {g : Graph} {v : ValueId} {spec : InputSpec} {input : Nat}

theorem throw_eq_ok {ε : Type} {c : Prop} [Decidable c] {e : ε} :
    (if c then throw e else pure () : Except ε Unit) = .ok () ↔ ¬ c := by
  by_cases h : c
  · simp [h, throw, throwThe, MonadExceptOf.throw]
  · simp [h, pure, Except.pure]

/-- A contract is accepted if its element type and its rank are not declared otherwise. -/
theorem checkContract_eq_ok : g.checkContract ((v, spec), input) = .ok () ↔
    ∃ declared, g.tensorType? v = some declared ∧ (∀ d, declared.dtype = some d → d = spec.dtype) ∧
      ∀ dims, declared.shape = some dims → dims.length = spec.shape.rank := by
  unfold checkContract
  dsimp only
  cases htype : g.tensorType? v with
  | none => simp [throw, throwThe, MonadExceptOf.throw]
  | some declared =>
    obtain ⟨_ | d, _ | dims⟩ := declared
    · simp [TensorType.rank?, pure, Except.pure]
    · refine throw_eq_ok.trans ?_
      simp
    · refine throw_eq_ok.trans ?_
      simp
    · refine Outcome.guard_eq_ok.trans ?_
      refine (and_congr_right fun _ => throw_eq_ok).trans ?_
      simp

/-- A tensor is accepted if neither its element type nor its extents are declared otherwise. -/
theorem checkInput_eq_ok {t : Tensor} : g.checkInput input v t = .ok () ↔
    ∀ declared, g.tensorType? v = some declared → (∀ d, declared.dtype = some d → d = t.dtype) ∧
      ∀ dims, declared.shape = some dims → List.Forall₂ Dimension.Admits dims t.dims := by
  unfold checkInput
  cases htype : g.tensorType? v with
  | none => simp [pure, Except.pure]
  | some declared =>
    obtain ⟨_ | d, _ | dims⟩ := declared
    · simp [pure, Except.pure]
    · refine throw_eq_ok.trans ?_
      simp [fitsDeclared_eq_true]
    · refine throw_eq_ok.trans ?_
      simp
    · refine Outcome.guard_eq_ok.trans ?_
      refine (and_congr_right fun _ => throw_eq_ok).trans ?_
      simp [fitsDeclared_eq_true]

/-! ## Top theorems -/

section

variable {declared : TensorType} (htype : g.tensorType? v = some declared)
  (hcontract : g.checkContract ((v, spec), input) = .ok ()) (hchecked : spec.shape.check = .ok ())

include htype hcontract

/-- A tensor that keeps an accepted contract is refused for its extents only. -/
theorem checkInput_iff_of_allows {t : Tensor} (ht : spec.Allows t) :
    g.checkInput input v t = .ok () ↔
      ∀ dims, declared.shape = some dims → List.Forall₂ Dimension.Admits dims t.dims := by
  obtain ⟨_, hsame, hdtype, -⟩ := checkContract_eq_ok.mp hcontract
  obtain rfl := Option.some.inj (htype.symm.trans hsame)
  rw [checkInput_eq_ok]
  constructor
  · intro h
    exact (h declared htype).2
  · intro h other hother
    obtain rfl := Option.some.inj (htype.symm.trans hother)
    exact ⟨fun d hd => (hdtype d hd).trans ht.1.symm, h⟩

include hchecked

/-- Every tensor that keeps the contract is accepted if and only if the contract says at least as
much about each axis as the declared type. -/
theorem all_accepted_iff :
    (∀ t, spec.Allows t → g.checkInput input v t = .ok ()) ↔
      ∀ dims, declared.shape = some dims →
        List.Forall₂ Dimension.Refines spec.shape.dimensions dims := by
  constructor
  · intro hall dims hdims
    refine (ShapeSpec.forall_admits_iff hchecked).mp fun extents hspans => ?_
    have hallows : spec.Allows (.ones spec.dtype extents) :=
      ⟨rfl, (ShapeSpec.admits_iff_spans hchecked).mpr hspans⟩
    exact (checkInput_iff_of_allows htype hcontract hallows).mp (hall _ hallows) dims hdims
  · intro hrefines t ht
    refine (checkInput_iff_of_allows htype hcontract ht).mpr fun dims hdims => ?_
    exact (ShapeSpec.forall_admits_iff hchecked).mpr (hrefines dims hdims) t.dims
      ((ShapeSpec.admits_iff_spans hchecked).mp ht.2)

/-- Some tensor that keeps the contract is accepted if and only if the contract leaves room for
what is declared about each axis. -/
theorem exists_accepted_iff :
    (∃ t, spec.Allows t ∧ g.checkInput input v t = .ok ()) ↔
      ∀ dims, declared.shape = some dims →
        List.Forall₂ Dimension.Meets dims (spec.shape.min.zip spec.shape.max) := by
  have hlen : spec.shape.min.length = spec.shape.max.length :=
    (ShapeSpec.spans_bounds hchecked).1.2.length_eq
  constructor
  · rintro ⟨t, ht, hinput⟩ dims hdims
    obtain ⟨hlo, hhi⟩ := (ShapeSpec.admits_iff_spans hchecked).mp ht.2
    exact (ShapeSpec.exists_between_iff hlen).mp
      ⟨t.dims, hlo, hhi, (checkInput_iff_of_allows htype hcontract ht).mp hinput dims hdims⟩
  · intro hmeets
    obtain ⟨extents, hspans, hadmits⟩ : ∃ extents, spec.shape.Spans extents ∧
        ∀ dims, declared.shape = some dims → List.Forall₂ Dimension.Admits dims extents := by
      cases hshape : declared.shape with
      | none => exact ⟨_, (ShapeSpec.spans_bounds hchecked).1, nofun⟩
      | some dims =>
        obtain ⟨extents, hlo, hhi, hadmits⟩ :=
          (ShapeSpec.exists_between_iff hlen).mpr (hmeets dims hshape)
        exact ⟨extents, ⟨hlo, hhi⟩, fun _ hdims => Option.some.inj hdims ▸ hadmits⟩
    have hallows : spec.Allows (.ones spec.dtype extents) :=
      ⟨rfl, (ShapeSpec.admits_iff_spans hchecked).mpr hspans⟩
    exact ⟨_, hallows, (checkInput_iff_of_allows htype hcontract hallows).mpr hadmits⟩

end

/-- Contracts are accepted if there is one for each input and each is. -/
theorem checkContracts_eq_ok {specs : List InputSpec} : g.checkContracts specs = .ok () ↔
    g.inputs.length = specs.length ∧
      ∀ (i : Nat) v spec, g.inputs[i]? = some v → specs[i]? = some spec →
        g.checkContract ((v, spec), i) = .ok () := by
  unfold checkContracts
  rw [Outcome.guard_eq_ok, not_not, Outcome.forM_eq_ok]
  refine and_congr_right fun _ => ⟨fun h i v spec hv hspec => ?_, fun h entry hentry => ?_⟩
  · exact h _ (List.mk_mem_zipIdx_iff_getElem?.mpr (List.getElem?_zip_eq_some.mpr ⟨hv, hspec⟩))
  · obtain ⟨hv, hspec⟩ := List.getElem?_zip_eq_some.mp (List.mem_zipIdx_iff_getElem?.mp hentry)
    exact h _ _ _ hv hspec

section

variable {specs : List InputSpec} {ts : List Tensor}
  (hcontracts : g.checkContracts specs = .ok ()) (hchecked : ∀ spec ∈ specs, spec.check = .ok ())
  (hts : List.Forall₂ InputSpec.Allows specs ts)

include hcontracts hchecked hts

/-- Where all contracts say at least as much as the declared types, a graph takes all tensors that
keep them. -/
theorem exists_bindInputs_of_refines
    (hrefines : ∀ (i : Nat) v spec declared dims, g.inputs[i]? = some v → specs[i]? = some spec →
      g.tensorType? v = some declared → declared.shape = some dims →
        List.Forall₂ Dimension.Refines spec.shape.dimensions dims) :
    ∃ start, g.bindInputs ts = .ok start := by
  obtain ⟨hlen, hcontracts⟩ := checkContracts_eq_ok.mp hcontracts
  refine ⟨_, bindInputs_eq_ok.mpr ⟨(hlen.trans hts.length_eq).symm, fun entry hentry => ?_, rfl⟩⟩
  obtain ⟨hv, ht⟩ := List.getElem?_zip_eq_some.mp (List.mem_zipIdx_iff_getElem?.mp hentry)
  obtain ⟨spec, hspec, hallows⟩ := Outcome.exists_getElem?_of_forall₂ hts.flip ht
  have hcontract := hcontracts _ _ spec hv hspec
  obtain ⟨declared, htype, -⟩ := checkContract_eq_ok.mp hcontract
  have hrange := Outcome.mapError_eq_ok.mp (hchecked spec (List.mem_of_getElem? hspec))
  exact (all_accepted_iff htype hcontract hrange).mpr
    (fun dims hdims => hrefines _ _ spec declared dims hv hspec htype hdims) _ hallows

/-- Where a contract leaves no room for a declared extent, a graph refuses all tensors that keep
the contracts. -/
theorem bindInputs_ne_ok_of_not_meets {i : Nat} {v : ValueId} {spec : InputSpec}
    {declared : TensorType} {dims : List Dimension} (hv : g.inputs[i]? = some v)
    (hspec : specs[i]? = some spec) (htype : g.tensorType? v = some declared)
    (hdims : declared.shape = some dims)
    (hroom : ¬ List.Forall₂ Dimension.Meets dims (spec.shape.min.zip spec.shape.max))
    (start : Bindings) : g.bindInputs ts ≠ .ok start := by
  intro hstart
  obtain ⟨-, hcontracts⟩ := checkContracts_eq_ok.mp hcontracts
  obtain ⟨-, hinputs, -⟩ := bindInputs_eq_ok.mp hstart
  obtain ⟨t, ht, hallows⟩ := Outcome.exists_getElem?_of_forall₂ hts hspec
  have hmem : ((v, t), i) ∈ (g.inputs.zip ts).zipIdx :=
    List.mk_mem_zipIdx_iff_getElem?.mpr (List.getElem?_zip_eq_some.mpr ⟨hv, ht⟩)
  have hrange := Outcome.mapError_eq_ok.mp (hchecked spec (List.mem_of_getElem? hspec))
  exact hroom ((exists_accepted_iff htype (hcontracts i v spec hv hspec) hrange).mp
    ⟨t, hallows, hinputs _ hmem⟩ dims hdims)

end

/-- A declared extent of two and a contract of three agree in their ranks only. -/
example :
    let g : Graph := ⟨"g", #[⟨.tensor (.of .f32 [2]), none⟩], [], [⟨0⟩], [⟨0⟩], 0⟩
    let spec : InputSpec := { shape := .fixed [3] }
    g.checkContracts [spec] = .ok () ∧ spec.shape.admits [3] = true ∧
      g.checkInput 0 ⟨0⟩ (.ones .f32 [3]) = .error (.inputShape 0 [3]) :=
  ⟨rfl, rfl, rfl⟩

end Graph

end HybridGraph
