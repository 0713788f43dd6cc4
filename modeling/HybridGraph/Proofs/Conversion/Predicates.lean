import HybridGraph.Proofs.Conversion.Answering
import HybridGraph.Proofs.Execute.Descriptors
/-!
# What predicates promise

A predicate is a list of conditions, each with the reason that it gives when it fails.  Where it
gives none, the conditions hold: the operands are as many as the kind takes, and what is declared of
them is what the converter needs to know of the tensors that they stand for (`Graph.Matches`).
-/

namespace HybridGraph

open Reference

/-! ## Operands -/

/-- A value is declared with the type of a tensor and stands for a network tensor with its
descriptor. -/
structure Graph.Matches (g : Graph) (s : EmitState Reference.accelerator) (v : ValueId)
    (t : Tensor) : Prop where
  declared : g.tensorType? v = some (.of t.dtype t.dims)
  bound : ∃ x, s.tensor? v = some x ∧ Network.describe? s.network x = some t.sig

namespace Graph

variable {g : Graph} {s s' : EmitState Reference.accelerator} {node : Node} {ts : List Tensor}
  {t : Tensor} {operand : Nat}

/-- An operand is the value of its place. -/
theorem exists_matches (h : List.Forall₂ (g.Matches s) node.inputs ts)
    (ht : ts[operand]? = some t) :
    ∃ v, node.inputs[operand]? = some v ∧ g.Matches s v t := by
  obtain ⟨hlen, hall⟩ := List.forall₂_iff_get.mp h
  obtain ⟨hlt, rfl⟩ := List.getElem?_eq_some_iff.mp ht
  exact ⟨_, List.getElem?_eq_getElem (hlen ▸ hlt), hall operand (hlen ▸ hlt) hlt⟩

theorem exists_supplies (h : List.Forall₂ (g.Matches s) node.inputs ts)
    (ht : ts[operand]? = some t) : ∃ x, s.Supplies node operand x t.sig := by
  obtain ⟨v, hv, hmatch⟩ := exists_matches h ht
  obtain ⟨x, hx, hdescribed⟩ := hmatch.bound
  exact ⟨x, by rw [hv]; exact hx, hdescribed⟩

theorem operandType?_of_matches (h : List.Forall₂ (g.Matches s) node.inputs ts)
    (ht : ts[operand]? = some t) : node.operandType? g operand = some (.of t.dtype t.dims) := by
  obtain ⟨v, hv, hmatch⟩ := exists_matches h ht
  rw [Node.operandType?, hv]
  exact hmatch.declared

theorem operandDType?_of_matches (h : List.Forall₂ (g.Matches s) node.inputs ts)
    (ht : ts[operand]? = some t) : node.operandDType? g operand = some t.dtype := by
  rw [Node.operandDType?, operandType?_of_matches h ht]
  rfl

theorem operandRank?_of_matches (h : List.Forall₂ (g.Matches s) node.inputs ts)
    (ht : ts[operand]? = some t) : node.operandRank? g operand = some t.rank := by
  rw [Node.operandRank?, operandType?_of_matches h ht]
  simp [TensorType.of, TensorType.rank?, Tensor.rank]

end Graph

/-! ## Conditions of predicates -/

namespace Support

open Reference.Call

variable {g : Graph} {node : Node} {count operand : Nat} {condition : Bool} {reason : Reason}
  {s : EmitState Reference.accelerator} {ts : List Tensor} {dtype : DType}

theorem require_eq_ok : require condition reason = .ok () ↔ condition = true := by
  cases condition <;> simp [require]

/-- Conditions one after the other. -/
theorem and_eq_ok {first : Support} {rest : Unit → Support} :
    (first >>= rest) = .ok () ↔ first = .ok () ∧ rest () = .ok () := by
  rw [Outcome.bind_eq_ok]
  exact ⟨fun ⟨⟨⟩, h⟩ => h, fun h => ⟨(), h⟩⟩

/-- A condition that only some nodes need, and then another one. -/
theorem guard_eq_ok {c : Prop} [Decidable c] {first : Support} {rest : Unit → Support} :
    (if c then first >>= rest else rest ()) = .ok () ↔
      (c → first = .ok ()) ∧ rest () = .ok () := by
  split
  · next hc => simp [and_eq_ok, hc]
  · next hc => simp [hc]

theorem length_of_tensors (h : tensors g node count = .ok ()) : node.inputs.length = count :=
  of_decide_eq_true (require_eq_ok.mp (and_eq_ok.mp h).1)

/-- One operand. -/
theorem eq_singleton_of_tensors (hlength : node.inputs.length = ts.length)
    (h : tensors g node 1 = .ok ()) : ∃ t, ts = [t] :=
  List.length_eq_one_iff.mp (hlength.symm.trans (length_of_tensors h))

/-- Two operands. -/
theorem eq_pair_of_tensors (hlength : node.inputs.length = ts.length)
    (h : tensors g node 2 = .ok ()) : ∃ t u, ts = [t, u] :=
  List.length_eq_two.mp (hlength.symm.trans (length_of_tensors h))

theorem isFloat_of_floating (h : floating g node operand = .ok ())
    (hdtype : node.operandDType? g operand = some dtype) : dtype.isFloat = true := by
  rw [floating, hdtype] at h
  exact require_eq_ok.mp h

/-- Layers keep whole numbers whole. -/
theorem whole_of_wholeNumbers (h : wholeNumbers node dtype = .ok ())
    (hint : dtype.isFloat = false) :
    node.kind ≠ .div ∧ ∀ x, node.float? "other" = some x → Number.hasFraction x = false := by
  unfold wholeNumbers at h
  rw [hint] at h
  obtain ⟨hdiv, hfractions⟩ := and_eq_ok.mp h
  refine ⟨of_decide_eq_true (require_eq_ok.mp hdiv), fun x hx => ?_⟩
  have hother := Outcome.forM_eq_ok.mp hfractions "other" List.mem_cons_self
  rw [hx] at hother
  simpa using require_eq_ok.mp hother

/-- The operands of a binary kind have one type, and numbers do not widen it. -/
theorem types_of_binary (h : Support.binary g node = .ok ()) :
    sameTypes g node = .ok () ∧
      ∀ dtype, node.operandDType? g 0 = some dtype → wholeNumbers node dtype = .ok () := by
  obtain ⟨hsame, hwhole⟩ := and_eq_ok.mp (guard_eq_ok.mp (and_eq_ok.mp h).2).2
  refine ⟨hsame, fun dtype hdtype => ?_⟩
  rw [hdtype] at hwhole
  exact (and_eq_ok.mp hwhole).1

/-- A requested result type is that of the operand, as far as it is declared truthfully. -/
theorem requests_of_truthful (h : requestedType g node = .ok ())
    (htruth : ∀ declared, node.operandDType? g 0 = some declared → declared = dtype) :
    node.Requests dtype := by
  unfold requestedType at h
  split at h
  · next hattr => exact .inl hattr
  · next hattr => exact .inr (.inl hattr)
  · next requested hattr =>
    have hrequested := of_decide_eq_true (require_eq_ok.mp h)
    exact .inr (.inr (htruth requested hrequested ▸ hattr))
  · cases h

theorem requests_of_requestedType (h : requestedType g node = .ok ())
    (hdtype : node.operandDType? g 0 = some dtype) : node.Requests dtype :=
  requests_of_truthful h fun _ hdeclared => Option.some.inj (hdeclared.symm.trans hdtype)

theorem requirements_of_reduce (h : Support.reduce g node = .ok ()) :
    tensors g node 1 = .ok () ∧ (node.kind = .mean → floating g node 0 = .ok ()) ∧
      requestedType g node = .ok () := by
  obtain ⟨htensors, h⟩ := and_eq_ok.mp h
  obtain ⟨hfloating, h⟩ := guard_eq_ok.mp h
  obtain ⟨-, h⟩ := and_eq_ok.mp h
  refine ⟨htensors, hfloating, ?_⟩
  split at h
  · exact h
  · exact h
  · cases h

/-- A reshape target without zeros. -/
theorem exists_target (h : Support.reshape g node = .ok ()) :
    ∃ target, node.ints? "shape" = some target ∧ 0 ∉ target := by
  obtain ⟨-, hrest⟩ := and_eq_ok.mp h
  obtain ⟨hints, hrest⟩ := and_eq_ok.mp hrest
  obtain ⟨target, htarget⟩ := Option.isSome_iff_exists.mp (require_eq_ok.mp hints)
  have hentries := require_eq_ok.mp (and_eq_ok.mp hrest).1
  rw [htarget, Option.getD_some, List.all_eq_true] at hentries
  exact ⟨target, htarget, fun hmem => by simpa using hentries 0 hmem⟩

theorem exists_axes (h : Support.permute g node = .ok ()) :
    ∃ axes, node.ints? "dims" = some axes :=
  Option.isSome_iff_exists.mp (require_eq_ok.mp (and_eq_ok.mp h).2)

theorem exists_amounts (h : Support.pad g node = .ok ()) :
    ∃ amounts, node.ints? "pad" = some amounts :=
  Option.isSome_iff_exists.mp (require_eq_ok.mp (and_eq_ok.mp (and_eq_ok.mp h).2).1)

/-- A weight is a tensor. -/
theorem exists_weight (h : Support.constant g node = .ok ()) :
    ∃ t, (node.attr? "value").bind Attr.tensor? = some t ∧ constantValue node = .tensor t := by
  have hpayload : ((node.attr? "value").bind Attr.tensor?).isSome := by
    unfold Support.constant at h
    split at h
    · cases h
    · exact require_eq_ok.mp (and_eq_ok.mp h).2
  obtain ⟨t, ht⟩ := Option.isSome_iff_exists.mp hpayload
  obtain ⟨a, ha, hta⟩ := Option.bind_eq_some_iff.mp ht
  cases a <;> cases hta
  exact ⟨t, ht, by rw [constantValue, ha]⟩

/-- The type of a conversion is named, if at all, by itself. -/
theorem attr?_of_cast (h : Support.cast g node = .ok ()) :
    node.attr? "dtype" = none ∨ ∃ dtype, node.attr? "dtype" = some (.dtype dtype) := by
  obtain ⟨-, h⟩ := and_eq_ok.mp h
  split at h
  · next hattr => exact .inl hattr
  · next dtype hattr => exact .inr ⟨dtype, hattr⟩
  · cases h

theorem rank_of_matrix {rank : Nat} (h : matrix g node operand = .ok ())
    (hrank : node.operandRank? g operand = some rank) : 2 ≤ rank := by
  rw [matrix, hrank] at h
  exact of_decide_eq_true (require_eq_ok.mp h)

/-- One operand, and what supplies it. -/
theorem exists_operand (h : tensors g node 1 = .ok ())
    (hmatch : List.Forall₂ (g.Matches s) node.inputs ts) :
    ∃ t x, ts = [t] ∧ s.Supplies node 0 x t.sig := by
  obtain ⟨t, rfl⟩ := eq_singleton_of_tensors hmatch.length_eq h
  obtain ⟨x, h0⟩ : ∃ x, s.Supplies node 0 x t.sig := Graph.exists_supplies hmatch rfl
  exact ⟨t, x, rfl, h0⟩

/-- One floating operand. -/
theorem exists_float_operand (h : floatUnary g node = .ok ())
    (hmatch : List.Forall₂ (g.Matches s) node.inputs ts) :
    ∃ t x, ts = [t] ∧ s.Supplies node 0 x t.sig ∧ t.dtype.isFloat = true := by
  obtain ⟨htensors, hfloating⟩ := and_eq_ok.mp h
  obtain ⟨t, x, rfl, h0⟩ := exists_operand htensors hmatch
  exact ⟨t, x, rfl, h0, isFloat_of_floating hfloating (Graph.operandDType?_of_matches hmatch rfl)⟩

/-- Two operands, and what supplies them. -/
theorem exists_operands (h : tensors g node 2 = .ok ())
    (hmatch : List.Forall₂ (g.Matches s) node.inputs ts) :
    ∃ a b x y, ts = [a, b] ∧ s.Supplies node 0 x a.sig ∧ s.Supplies node 1 y b.sig := by
  obtain ⟨a, b, rfl⟩ := eq_pair_of_tensors hmatch.length_eq h
  obtain ⟨x, h0⟩ : ∃ x, s.Supplies node 0 x a.sig := Graph.exists_supplies hmatch rfl
  obtain ⟨y, h1⟩ : ∃ y, s.Supplies node 1 y b.sig := Graph.exists_supplies hmatch rfl
  exact ⟨a, b, x, y, rfl, h0, h1⟩

/-- The operands of a binary kind. -/
theorem operands_of_binaryOperands (h : binaryOperands g node = .ok ())  :
    tensors g node 1 = .ok () ∧ (∃ value, node.float? "other" = some value) ∨
      tensors g node 2 = .ok () := by
  unfold binaryOperands at h
  split at h
  · obtain ⟨hother, htensors⟩ := and_eq_ok.mp h
    exact .inl ⟨htensors, Option.isSome_iff_exists.mp (require_eq_ok.mp hother)⟩
  · exact .inr h
  · cases h

theorem exists_float_of_number {name : String} (h : number node name = .ok ()) :
    ∃ value, node.float? name = some value :=
  Option.isSome_iff_exists.mp (require_eq_ok.mp h)

end Support

end HybridGraph
