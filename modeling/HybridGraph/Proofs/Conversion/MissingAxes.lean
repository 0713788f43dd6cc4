import HybridGraph.Proofs.Conversion.Movements
/-!
# Missing axes

An axis is checked against a rank, and rank zero counts as one, so axis zero of a tensor without
axes passes.  A converter that goes on to use such an axis finds none (`.missingAxis`).  All but one
converter only compare axes or hand them to a layer, which checks them again.  The exchange of two
axes uses both, and its predicate asks for two integers only:

    (∃ e s', convert g truncateWide s node = (.error e, s') ∧ e.cause.IsMissingAxis) ↔
      node.kind = .transpose ∧ s.SwapsScalar node                        (convert_isMissingAxis_iff)
-/

namespace HybridGraph

variable {A : Accelerator} {α β : Type}

/-! ## Computations that find their axes -/

namespace Emit

/-- A computation never uses an axis that is missing. -/
def FindsAxes (m : Emit A α) : Prop :=
  ∀ site s s' e, m.eval site s = (.error e, s') → ¬ e.cause.IsMissingAxis

namespace FindsAxes

theorem done (a : α) : FindsAxes (pure a : Emit A α) := fun _ _ _ _ h => nomatch h

theorem read : FindsAxes (read : Emit A EmitSite) := fun _ _ _ _ h => nomatch h

theorem node : FindsAxes (node : Emit A Node) := fun _ _ _ _ h => nomatch h

theorem stop {cause : ConversionCause} (h : ¬ cause.IsMissingAxis) :
    FindsAxes (stop cause : Emit A α) := by
  intro site s s' e hrun
  cases hrun
  exact h

theorem fail {fault : ConversionFault}
    (h : ¬ (ConversionCause.failed fault).IsMissingAxis) :
    FindsAxes (fail fault : Emit A α) := stop h

theorem orFail {value? : Option α} {fault : ConversionFault}
    (h : ¬ (ConversionCause.failed fault).IsMissingAxis) :
    FindsAxes (orFail value? fault : Emit A α) := by
  cases value? with
  | none => exact fail h
  | some a => exact done a

theorem input (operand : Nat) : FindsAxes (input operand : Emit A TensorRef) := by
  intro site s s' e hrun
  rw [eval_input] at hrun
  split at hrun
  · cases hrun
    exact id
  · split at hrun
    · cases hrun
    · cases hrun
      exact id

theorem describe (x : TensorRef) : FindsAxes (describe x : Emit A TensorSig) := by
  intro site s s' e hrun
  rw [eval_describe] at hrun
  split at hrun
  · cases hrun
  · cases hrun
    exact id

theorem layer (kind : LayerKind) (inputs : List TensorRef) :
    FindsAxes (layer kind inputs : Emit A TensorRef) := by
  intro site s s' e hrun
  rw [eval_layer] at hrun
  split at hrun
  · cases hrun
    exact id
  · cases hrun
  · cases hrun
    exact id

theorem bind {m : Emit A α} {f : α → Emit A β} (hm : m.FindsAxes) (hf : ∀ a, (f a).FindsAxes) :
    (m >>= f).FindsAxes := by
  intro site s s' e hrun
  rcases eval_bind_eq_error.mp hrun with h | ⟨a, next, -, h⟩
  · exact hm site s s' e h
  · exact hf a site next s' e h

theorem axis (n : Int) (rank : Nat) : FindsAxes (axis n rank : Emit A Nat) := orFail id

theorem bindOutput (v : ValueId) (x : TensorRef) : FindsAxes (bindOutput v x : Emit A Unit) := by
  refine bind read fun site => bind (describe x) fun desc => ?_
  dsimp only
  split
  · exact fun _ _ _ _ h => nomatch h
  · exact stop id

theorem bindOutputs (xs : List TensorRef) : FindsAxes (bindOutputs xs : Emit A Unit) := by
  have hentries (entries : List (ValueId × TensorRef)) :
      FindsAxes (entries.forM fun entry => Emit.bindOutput entry.1 entry.2 : Emit A Unit) := by
    induction entries with
    | nil => exact fun _ _ _ _ h => nomatch h
    | cons entry entries ih => exact bind (bindOutput entry.1 entry.2) fun _ => ih
  refine bind node fun node => ?_
  dsimp only
  split
  · exact stop id
  · exact hentries (node.outputs.zip xs)

end FindsAxes

theorem Uniform.findsAxes {σ : TensorRef → TensorRef} {missing : Prop} {f : α → β} {m : Emit A α}
    {m' : Emit A β} (h : Uniform σ missing f m m') (hmissing : ¬ missing) : m.FindsAxes := by
  induction h with
  | done _ a => exact .done a
  | fail _ hfault => exact .fail fun h => hmissing (hfault h)
  | input operand => exact .input operand
  | describe tensor => exact .describe tensor
  | layer kind inputs => exact .layer kind inputs
  | narrowing _ _ ih => exact .bind .read ih
  | node _ _ ih => exact .bind .node ih
  | bind _ _ ihm ihk => exact .bind ihm ihk

end Emit

/-! ## Exchange of two axes -/

namespace EmitState

/-- A node names axis zero twice, and its operand stands for a tensor without axes. -/
def SwapsScalar (s : EmitState Reference.accelerator) (node : Node) : Prop :=
  node.int? "dim0" = some 0 ∧ node.int? "dim1" = some 0 ∧ ∃ x d, s.Supplies node 0 x d ∧ d.rank = 0

end EmitState

namespace Converter

open Emit

variable {site : EmitSite} {s s' : EmitState Reference.accelerator} {e : ConversionError}

/-- Axes that pass the check and are missing are axis zero of a tensor without axes. -/
theorem eq_zero_of_axisIndex {n : Int} {rank axis : Nat} (h : Kernel.axisIndex n rank = .ok axis)
    (hmissing : rank ≤ axis) : rank = 0 ∧ n = 0 := by
  have hlt := Kernel.lt_of_axisIndex h
  obtain rfl : rank = 0 := by omega
  refine ⟨rfl, ?_⟩
  by_contra hne
  have hrange : (if n < 0 then n + (0 : Nat) else n) < 0 ∨
      ((Nat.max 0 1 : Nat) : Int) ≤ if n < 0 then n + (0 : Nat) else n := by
    show _ ∨ (1 : Int) ≤ _
    split <;> omega
  rw [Kernel.axisIndex, if_pos hrange] at h
  cases h

theorem eval_needAxis_eq_error {axis rank : Nat}
    (h : (needAxis axis rank : Emit Reference.accelerator Unit).eval site s = (.error e, s')) :
    rank ≤ axis := by
  unfold needAxis at h
  split at h
  · cases h
  · next hle => exact Nat.le_of_not_lt hle

/-- An exchange fails to find its axes only on a tensor without axes. -/
theorem swapsScalar_of_transpose (he : e.cause.IsMissingAxis)
    (h : (transpose : Emit Reference.accelerator TensorRef).eval site s = (.error e, s')) :
    s.SwapsScalar site.node := by
  have hfinds {α : Type} {m : Emit Reference.accelerator α} {s₁ s₂ : EmitState _}
      (hm : m.FindsAxes) (hrun : m.eval site s₁ = (.error e, s₂)) : s.SwapsScalar site.node :=
    absurd he (hm site s₁ s₂ e hrun)
  rcases eval_bind_eq_error.mp h with h | ⟨x, _, hinput, h⟩
  · exact hfinds (.input 0) h
  obtain ⟨⟨v, hv, hx⟩, rfl⟩ := eval_input_eq_ok.mp hinput
  rcases eval_bind_eq_error.mp h with h | ⟨d, _, hdescribe, h⟩
  · exact hfinds (.describe x) h
  obtain ⟨hd, rfl⟩ := eval_describe_eq_ok.mp hdescribe
  have hsupplies : s.Supplies site.node 0 x d := ⟨by rw [hv]; exact hx, hd⟩
  rcases eval_bind_eq_error.mp h with h | ⟨node, _, hnode, h⟩
  · exact hfinds .node h
  cases hnode
  split at h
  · next n m hn hm =>
    rcases eval_bind_eq_error.mp h with h | ⟨a, _, haxis, h⟩
    · exact hfinds (.axis n d.rank) h
    obtain ⟨rfl, ha⟩ := reads_axis a _ haxis
    rcases eval_bind_eq_error.mp h with h | ⟨b, _, haxis, h⟩
    · exact hfinds (.axis m d.rank) h
    obtain ⟨rfl, hb⟩ := reads_axis b _ haxis
    -- one missing axis shows that the tensor has none, so the other one is zero as well
    have hzero : d.rank = 0 → s.SwapsScalar site.node := fun hrank => by
      obtain ⟨-, rfl⟩ := eq_zero_of_axisIndex ha (hrank ▸ Nat.zero_le a)
      obtain ⟨-, rfl⟩ := eq_zero_of_axisIndex hb (hrank ▸ Nat.zero_le b)
      exact ⟨hn, hm, x, d, hsupplies, hrank⟩
    rcases eval_bind_eq_error.mp h with h | ⟨⟨⟩, _, hfirst, h⟩
    · exact hzero (eq_zero_of_axisIndex ha (eval_needAxis_eq_error h)).1
    obtain ⟨rfl, -⟩ := reads_needAxis _ _ hfirst
    rcases eval_bind_eq_error.mp h with h | ⟨⟨⟩, _, hsecond, h⟩
    · exact hzero (eq_zero_of_axisIndex hb (eval_needAxis_eq_error h)).1
    exact hfinds (.layer _ _) h
  · exact hfinds (.fail id) h

theorem eval_transpose_of_swapsScalar (h : s.SwapsScalar site.node) :
    (transpose : Emit Reference.accelerator TensorRef).eval site s =
      (.error ⟨site.node.id, site.node.kind, .failed (.missingAxis 0 0)⟩, s) := by
  obtain ⟨hn, hm, x, d, hsupplies, hrank⟩ := h
  simp only [transpose, eval_bind, eval_input_of hsupplies, eval_describe_of hsupplies.described,
    eval_node, hn, hm, hrank]
  rfl

end Converter

/-! ## Converted nodes -/

namespace Registry

open Converter

theorem findsAxes_of_standard {kind : OpKind} {converter : Converter A} (hkind : kind ≠ .transpose)
    (h : Registry.standard A kind = some converter) : converter.convert.FindsAxes :=
  (uniform_of_standard (σ := id) h).findsAxes hkind

variable {g : Graph} {truncateWide : Bool} {s : EmitState Reference.accelerator} {node : Node}

/-- A supported node uses a missing axis exactly if it exchanges axis zero of a tensor without axes
with itself. -/
theorem convert_isMissingAxis_iff
    (hsupport : (standard Reference.accelerator).support g node = .ok ()) :
    (∃ e s', (standard Reference.accelerator).convert g truncateWide s node = (.error e, s') ∧
      e.cause.IsMissingAxis) ↔ node.kind = .transpose ∧ s.SwapsScalar node := by
  obtain ⟨converter, hconverter⟩ := exists_converter hsupport
  rw [convert_of_support hsupport hconverter]
  constructor
  · rintro ⟨e, s', hrun, he⟩
    rcases Emit.eval_bind_eq_error.mp hrun with hrun | ⟨xs, next, -, hbind⟩
    · by_cases hkind : node.kind = .transpose
      · rw [hkind] at hconverter
        obtain rfl := Option.some.inj hconverter
        rcases Emit.eval_bind_eq_error.mp hrun with hrun | ⟨x, _, -, hpure⟩
        · exact ⟨hkind, swapsScalar_of_transpose he hrun⟩
        · cases hpure
      · exact absurd he (findsAxes_of_standard hkind hconverter _ _ _ _ hrun)
    · exact absurd he (Emit.FindsAxes.bindOutputs xs _ _ _ _ hbind)
  · rintro ⟨hkind, hswaps⟩
    rw [hkind] at hconverter
    obtain rfl := Option.some.inj hconverter
    have hrun : (transpose : Emit Reference.accelerator TensorRef).eval ⟨g, node, truncateWide⟩ s =
        (.error ⟨node.id, node.kind, .failed (.missingAxis 0 0)⟩, s) :=
      eval_transpose_of_swapsScalar hswaps
    exact ⟨_, s, Emit.eval_bind_eq_error.mpr (.inl (Emit.eval_bind_eq_error.mpr (.inl hrun))),
      trivial⟩

end Registry

end HybridGraph
