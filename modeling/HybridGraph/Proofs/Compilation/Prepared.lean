import HybridGraph.Proofs.Compilation.Exclusions
import HybridGraph.Proofs.Lowering.Ends
/-!
# Prepared graphs

What a preparation answers, if it answers: a graph in single assignment form with the inputs of the
graph that is compiled and as many outputs, a plan that is valid for it, and no open element type
among the values that were measured.

    compiler.prepare g c = .ok p → g.SameEnds p.lowered                       (sameEnds_of_prepare)
    compiler.prepare g c = .ok p → p.lowered.SingleAssignment          (singleAssignment_of_prepare)
    compiler.prepare g c = .ok p → p.lowered.isTensor v = true →
      p.lowered.knownType? p.shapes v = p.lowered.dtype? v                   (knownType?_of_prepare)
-/

namespace HybridGraph

/-! ## Types filled in -/

namespace Graph

variable {g : Graph} {v w : ValueId}

theorem tensorType?_setType {type : TensorType} (hv : g.isTensor v = true) :
    (g.setType v (.tensor type)).tensorType? w = if v = w then some type else g.tensorType? w := by
  have hlt := index_lt_of_isTensor hv
  unfold tensorType? type? value? setType
  rw [Array.getElem?_modify]
  by_cases hvw : v = w
  · subst hvw
    rw [if_pos rfl, if_pos rfl, Array.getElem?_eq_getElem hlt]
    rfl
  · have hindex : v.index ≠ w.index := fun h => hvw (congrArg ValueId.mk h)
    rw [if_neg hindex, if_neg hvw]

/-- Nothing is left open about the element type of a value. -/
def Settles (g : Graph) (v : ValueId) : Prop :=
  ∀ type, g.tensorType? v = some type → type.dtype.isSome = true

end Graph

namespace ShapeTable

variable {g : Graph} {v : ValueId}

theorem dtype_of_refined? {shape : ValueShape} {declared type : TensorType}
    (h : refined? shape declared = some type) : type.dtype.isSome = true := by
  unfold refined? at h
  split at h
  · cases h
  · rw [← Option.some.inj h, Option.or_some]
    rfl

theorem dtype_of_refined?_eq_none {shape : ValueShape} {declared : TensorType}
    (h : refined? shape declared = none) : declared.dtype.isSome = true := by
  unfold refined? at h
  split at h
  · next hsome => exact (Bool.and_eq_true_iff.mp hsome).1
  · cases h

/-- A visit settles its value and unsettles none. -/
theorem settles_refineValue {state : Graph × Nat} {entry : ValueId × ValueShape}
    (h : v = entry.1 ∨ state.1.Settles v) : (refineValue state entry).1.Settles v := by
  obtain ⟨g, count⟩ := state
  intro type htype
  unfold refineValue at htype
  dsimp only at htype
  split at htype
  · next filled hfilled =>
    obtain ⟨declared, hdeclared, hfilled⟩ := Option.bind_eq_some_iff.mp hfilled
    have htensor : g.isTensor entry.1 = true := by rw [Graph.isTensor, hdeclared]; rfl
    rw [Graph.tensorType?_setType htensor] at htype
    split at htype
    · rw [← Option.some.inj htype]
      exact dtype_of_refined? hfilled
    · next hne => exact h.resolve_left (fun heq => hne heq.symm) type htype
  · next hnone =>
    rcases h with rfl | h
    · exact dtype_of_refined?_eq_none (Option.bind_eq_none_iff.mp hnone type htype)
    · exact h type htype

theorem settles_foldl {state : Graph × Nat} {entries : List (ValueId × ValueShape)}
    (h : v ∈ entries.map Prod.fst ∨ state.1.Settles v) :
    (entries.foldl refineValue state).1.Settles v := by
  induction entries generalizing state with
  | nil => exact h.resolve_left List.not_mem_nil
  | cons entry entries ih =>
    refine ih ?_
    rw [List.map_cons, List.mem_cons, or_assoc] at h
    rcases h with h | h | h
    · exact .inr (settles_refineValue (.inl h))
    · exact .inl h
    · exact .inr (settles_refineValue (.inr h))

/-- Where the types of a table are filled in, the table knows no more about the element type of a
tensor than the graph. -/
theorem knownType?_refine (table : ShapeTable) (hv : (table.refine g).1.isTensor v = true) :
    (table.refine g).1.knownType? table v = (table.refine g).1.dtype? v := by
  obtain ⟨type, htype⟩ := Option.isSome_iff_exists.mp hv
  unfold Graph.knownType? Graph.dtype?
  rw [htype, Option.bind_some]
  cases hshape : table.get? v with
  | none => exact Option.or_none
  | some shape =>
    have hmem : v ∈ table.map Prod.fst := by
      obtain ⟨front, back, hsplit, -⟩ := List.lookup_eq_some_iff.mp hshape
      rw [hsplit]
      simp
    obtain ⟨dtype, hdtype⟩ := Option.isSome_iff_exists.mp (settles_foldl (.inl hmem) type htype)
    rw [hdtype, Option.some_or]

end ShapeTable

/-! ## Preparations -/

namespace Compiler

variable {A : Accelerator} {compiler : Compiler A} {g : Graph} {c : CompileConfig} {p : Prepared}

/-- A preparation lowers the graph and fills in its types. -/
theorem exists_of_prepare (h : compiler.prepare g c = .ok p) :
    ∃ lowered, compiler.lower g c.lowering = .ok lowered ∧
      p.lowered = (p.shapes.refine lowered).1 := by
  simp only [prepare, Outcome.bind_eq_ok, Outcome.mapError_eq_ok] at h
  obtain ⟨-, -, -, -, lowered, hlowered, -, -, plan, -, _, -, hp⟩ := h
  obtain rfl := Outcome.pure_eq_ok.mp hp
  exact ⟨lowered, hlowered, rfl⟩

theorem sameEnds_of_prepare (h : compiler.prepare g c = .ok p) : g.SameEnds p.lowered := by
  obtain ⟨lowered, hlowered, hrefined⟩ := exists_of_prepare h
  rw [hrefined]
  refine .trans ?_ (ShapeTable.sameEnds_refine p.shapes lowered)
  rw [of_lower hlowered]
  exact Step.sameEnds_runAll c.lowering (Step.standard compiler.cap) g

theorem singleAssignment_of_prepare (h : compiler.prepare g c = .ok p) :
    p.lowered.SingleAssignment := by
  obtain ⟨-, index, hindex, -⟩ := Plan.validate_eq_ok.mp (of_prepare h).2.2
  exact (GraphIndex.describes_of_build hindex).1

theorem knownType?_of_prepare (h : compiler.prepare g c = .ok p) {v : ValueId}
    (hv : p.lowered.isTensor v = true) :
    p.lowered.knownType? p.shapes v = p.lowered.dtype? v := by
  obtain ⟨lowered, -, hrefined⟩ := exists_of_prepare h
  rw [hrefined] at hv ⊢
  exact ShapeTable.knownType?_refine p.shapes hv

end Compiler

end HybridGraph
