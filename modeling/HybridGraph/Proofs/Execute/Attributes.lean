import HybridGraph.Execute.Interpreter
import HybridGraph.Proofs.Outcome
/-!
# Reading attributes that were set

A call reads an attribute from its node or, if the node has none of the name, from the operand that
carries it.  Setting one attribute of the node changes what is read under its name and nothing else
(`Reference.Call.attr?_setAttr`), so everything that a call does without that attribute stays.
-/

namespace HybridGraph

/-! ## Attribute lists -/

theorem lookup_cons_eq_ite {α : Type} {name other : String} {value : α}
    {entries : List (String × α)} :
    ((name, value) :: entries).lookup other =
      if other = name then some value else entries.lookup other := by
  rw [List.lookup_cons]
  by_cases h : other = name
  · simp [h]
  · have hne : (other == name) = false := by simpa using h
    simp [h, hne]

/-- Inserting an entry changes the value of its name and of no other. -/
theorem lookup_insertEntry {α : Type} {name other : String} {value : α}
    {entries : List (String × α)} :
    (insertEntry name value entries).lookup other =
      if other = name then some value else entries.lookup other := by
  induction entries with
  | nil => rw [insertEntry, lookup_cons_eq_ite]
  | cons head rest ih =>
    obtain ⟨key, held⟩ := head
    rw [insertEntry]
    split
    · rw [lookup_cons_eq_ite]
    · split
      · next heq =>
        subst heq
        simp only [lookup_cons_eq_ite]
        split <;> rfl
      · next hne =>
        simp only [lookup_cons_eq_ite, ih]
        by_cases h : other = key
        · rw [if_pos h, if_pos h, if_neg]
          rintro rfl
          exact hne h
        · rw [if_neg h, if_neg h]

theorem Node.attr?_setAttr {node : Node} {name other : String} {value : Attr} :
    (node.setAttr name value).attr? other =
      if other = name then some value else node.attr? other := lookup_insertEntry

/-- A kind that takes attribute operands takes a tensor before them. -/
theorem OpKind.positive_of_tensorOperands? {kind : OpKind} {count : Nat}
    (h : kind.tensorOperands? = some count) : 0 < count := by
  cases kind <;> cases h <;> decide

/-! ## Calls -/

namespace Reference.Call

variable {call : Call} {name other : String} {value : Attr}

/-- The first operand of a call, if it is a tensor. -/
theorem head?_of_tensor {t : Tensor} (h : call.tensor 0 = .ok t) :
    call.args.head? = some (.tensor t) := by
  unfold tensor arg? at h
  rw [List.head?_eq_getElem?]
  split at h
  · next heq =>
    obtain rfl := Except.ok.inj h
    exact heq
  · cases h
  · cases h

/-- A number on the right is an operand. -/
theorem right_of_scalar {a : Attr} {x : Float} (h : call.arg? 1 = some (.scalar a))
    (ha : a.float? = some x) : call.right = .ok (.inr x) := by
  unfold right
  rw [h]
  dsimp only
  rw [ha]

/-- A number on the right is an attribute where there is no second operand. -/
theorem right_of_other {x : Float} (h : call.arg? 1 = none)
    (hother : call.node.float? "other" = some x) : call.right = .ok (.inr x) := by
  unfold right
  rw [h]
  dsimp only
  rw [hother]

/-- Most nodes have one tensor as their result. -/
theorem results_eq_bind (hconstant : call.node.kind ≠ .constant)
    (hsize : call.node.kind ≠ .size) (hprint : call.node.kind ≠ .print) :
    call.results = call.tensorResult >>= fun t => pure [.tensor t] := by
  unfold Call.results
  split
  · next h => exact absurd h hconstant
  · next h => exact absurd h hsize
  · next h => exact absurd h hprint
  · rfl

theorem results_eq_ok {results : List Datum} (hconstant : call.node.kind ≠ .constant)
    (hsize : call.node.kind ≠ .size) (hprint : call.node.kind ≠ .print) :
    call.results = .ok results ↔ ∃ t, call.tensorResult = .ok t ∧ results = [.tensor t] := by
  rw [results_eq_bind hconstant hsize hprint, Outcome.bind_eq_ok]
  exact exists_congr fun t => and_congr_right fun _ => Outcome.pure_eq_ok.trans eq_comm

/-- An attribute of the node is read from the node. -/
theorem attr?_of_node (h : call.node.attr? name = some value) : call.attr? name = some value := by
  unfold attr?
  rw [h]

/-- An attribute that no operand carries is read from the node. -/
theorem attr?_of_no_operand (h : call.attrOperand? name = none) :
    call.attr? name = call.node.attr? name := by
  unfold attr?
  rw [h]
  cases call.node.attr? name <;> rfl

/-- A call with no operands beyond its tensors reads all attributes from its node. -/
theorem attr?_of_tensors {node : Node} {args : List Datum}
    (h : ∀ count, node.kind.tensorOperands? = some count → args.length ≤ count) :
    (mk node args).attr? name = node.attr? name := by
  refine attr?_of_no_operand ?_
  unfold attrOperand?
  cases hcount : node.kind.tensorOperands? with
  | none => rfl
  | some count =>
    have hle := h count hcount
    cases node.kind.attributeNames.findIdx? (· == name) with
    | none => rfl
    | some place => exact List.getElem?_eq_none (by simp; omega)

/-- A call of one operand reads all attributes from its node. -/
theorem attr?_of_one_operand {node : Node} {x : Datum} :
    (mk node [x]).attr? name = node.attr? name :=
  attr?_of_tensors fun _ h => OpKind.positive_of_tensorOperands? h

/-- An attribute that the node has not is read from the operand that carries it. -/
theorem attr?_of_operand (hnode : call.node.attr? name = none)
    (h : call.attrOperand? name = some (.scalar value)) : call.attr? name = some value := by
  unfold attr?
  rw [hnode, h]

/-- The call with an attribute of its node set. -/
def setAttr (call : Call) (name : String) (value : Attr) : Call :=
  ⟨call.node.setAttr name value, call.args⟩

theorem setAttr_kind : (call.setAttr name value).node.kind = call.node.kind := rfl

theorem setAttr_tensor {operand : Nat} :
    (call.setAttr name value).tensor operand = call.tensor operand := rfl

theorem setAttr_fail {α : Type} {fault : NodeFault} :
    (call.setAttr name value).fail fault = (call.fail fault : Except ExecError α) := rfl

theorem setAttr_kernel {α : Type} {result : Except KernelError α} :
    (call.setAttr name value).kernel result = call.kernel result := rfl

theorem setAttr_pointwise {f : Float → Float} :
    (call.setAttr name value).pointwise f = call.pointwise f := rfl

theorem setAttr_node_attr? : (call.setAttr name value).node.attr? other =
    if other = name then some value else call.node.attr? other := Node.attr?_setAttr

/-- An attribute that was set is read; the others are read as before. -/
theorem attr?_setAttr : (call.setAttr name value).attr? other =
    if other = name then some value else call.attr? other := by
  unfold attr?
  rw [setAttr_node_attr?]
  by_cases h : other = name
  · rw [if_pos h, if_pos h]
  · rw [if_neg h, if_neg h]
    rfl

theorem attr?_setAttr_of_ne (h : other ≠ name) :
    (call.setAttr name value).attr? other = call.attr? other := by
  rw [attr?_setAttr, if_neg h]

theorem setAttr_ints (h : other ≠ name) :
    (call.setAttr name value).ints other = call.ints other := by
  unfold ints
  rw [attr?_setAttr_of_ne h]
  rfl

theorem setAttr_dtype? (h : other ≠ name) :
    (call.setAttr name value).dtype? other = call.dtype? other := by
  unfold dtype?
  rw [attr?_setAttr_of_ne h]
  rfl

theorem setAttr_int (h : other ≠ name) :
    (call.setAttr name value).int other = call.int other := by
  unfold int
  rw [attr?_setAttr_of_ne h]
  rfl

theorem setAttr_reductionAxes {rank : Nat} (h : "dim" ≠ name) :
    (call.setAttr name value).reductionAxes rank = call.reductionAxes rank := by
  unfold reductionAxes
  rw [attr?_setAttr_of_ne h]
  rfl

theorem setAttr_binary {f : Float → Float → Float} (h : "other" ≠ name) :
    (call.setAttr name value).binary f = call.binary f := by
  have hright : (call.setAttr name value).right = call.right := by
    unfold right Node.float?
    rw [setAttr_node_attr?, if_neg h]
    rfl
  unfold binary
  rw [hright]
  rfl

/-! ## Attributes that were absent -/

theorem setAttr_float? (habsent : call.attr? name = none) (hvalue : value = .none) :
    (call.setAttr name value).float? other = call.float? other := by
  unfold float?
  rw [attr?_setAttr]
  by_cases h : other = name
  · subst h hvalue
    rw [if_pos rfl, habsent]
  · rw [if_neg h]
    rfl

/-- A number reads as its default whether it is absent or set to it. -/
theorem setAttr_float {default : Float} (habsent : call.attr? name = none)
    (hvalue : other = name → value.float? = some default) :
    (call.setAttr name value).float other default = call.float other default := by
  unfold float float?
  rw [attr?_setAttr]
  by_cases h : other = name
  · subst h
    have hnumber := hvalue rfl
    rw [if_pos rfl, habsent]
    cases value <;> simp_all [Attr.float?, bind, Except.bind]
  · rw [if_neg h]
    rfl

/-- A truth value reads as false whether it is absent or set to false. -/
theorem setAttr_flag (habsent : call.attr? name = none)
    (hvalue : other = name → value.bool? = some false) :
    (call.setAttr name value).flag other = call.flag other := by
  unfold flag
  rw [attr?_setAttr]
  by_cases h : other = name
  · subst h
    rw [if_pos rfl, habsent, Option.bind_some, hvalue rfl]
    rfl
  · rw [if_neg h]

end Reference.Call

end HybridGraph
