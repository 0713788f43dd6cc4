import HybridGraph.Execute.Interpreter
import HybridGraph.Program.Basic
import HybridGraph.Proofs.Outcome
/-!
# What a step can report

The reference interpreter fails only with faults at the node that it runs, and the steps of a hybrid
program add to the errors of its interpreter those of engine calls.  Neither reports a value that is
read before it is computed; only the run around them could.

    Reference.interpret node args = .error e → ∃ fault, e = node.fault fault
    p.callEngine node args ≠ .error (.unbound v)
-/

namespace HybridGraph

namespace Reference.Call

/-! ## Blaming the node -/

/-- A computation fails only with faults at the node of a call. -/
def Blames {α : Type} (call : Call) (r : Except ExecError α) : Prop :=
  ∀ e, r = .error e → ∃ fault, e = call.node.fault fault

namespace Blames

variable {α β : Type} {call : Call} {r : Except ExecError α}

theorem ok (a : α) : Blames call (.ok a) := by
  intro e h
  cases h

theorem pure (a : α) : Blames call (Pure.pure a) := ok a

theorem fail (fault : NodeFault) : Blames call (call.fail fault : Except ExecError α) := by
  intro e h
  exact ⟨fault, (Except.error.inj h).symm⟩

theorem kernel (result : Except KernelError α) : Blames call (call.kernel result) := by
  intro e h
  obtain ⟨cause, -, rfl⟩ := Outcome.mapError_eq_error.mp h
  exact ⟨.kernel cause, rfl⟩

theorem bind {f : α → Except ExecError β} (h : Blames call r) (hf : ∀ a, Blames call (f a)) :
    Blames call (r >>= f) := by
  intro e he
  rcases Outcome.bind_eq_error.mp he with he | ⟨a, -, he⟩
  · exact h e he
  · exact hf a e he

theorem mapM {f : β → Except ExecError α} (hf : ∀ b, Blames call (f b)) (bs : List β) :
    Blames call (bs.mapM f) := by
  intro e he
  obtain ⟨b, -, he⟩ := Outcome.exists_of_mapM_eq_error he
  exact hf b e he

theorem ite {c : Prop} [Decidable c] {r' : Except ExecError α} (h : Blames call r)
    (h' : Blames call r') : Blames call (if c then r else r') := by
  split
  · exact h
  · exact h'

/-! ## Readers -/

theorem tensor (operand : Nat) : Blames call (call.tensor operand) := by
  unfold Call.tensor
  split
  · exact ok _
  · exact fail _
  · exact fail _

theorem float? (name : String) : Blames call (call.float? name) := by
  unfold Call.float?
  split
  · exact ok _
  · exact ok _
  · split
    · exact ok _
    · exact fail _

theorem float (name : String) (default : Float) : Blames call (call.float name default) :=
  (float? name).bind fun _ => pure _

theorem int (name : String) : Blames call (call.int name) := by
  unfold Call.int
  split
  · exact ok _
  · exact fail _

theorem ints (name : String) : Blames call (call.ints name) := by
  unfold Call.ints
  split
  · exact ok _
  · exact ok _
  · exact fail _

theorem dtype? (name : String) : Blames call (call.dtype? name) := by
  unfold Call.dtype?
  split
  · exact ok _
  · exact ok _
  · exact ok _
  · split
    · exact ok _
    · exact fail _
  · exact fail _

theorem right : Blames call call.right := by
  unfold Call.right
  split
  · exact ok _
  · split
    · exact ok _
    · exact fail _
  · split
    · exact ok _
    · exact fail _

theorem axis (n : Int) (rank : Nat) : Blames call (call.axis n rank) := kernel _

theorem reductionAxes (rank : Nat) : Blames call (call.reductionAxes rank) := by
  unfold Call.reductionAxes
  split
  · exact ok _
  · exact ok _
  · exact ok _
  · exact (axis _ _).bind fun _ => pure _
  · exact mapM (fun n => axis n rank) _
  · exact fail _

/-! ## Families of operations -/

theorem mapAs (dtype : DType → DType) (f : Float → Float) : Blames call (call.mapAs dtype f) :=
  (tensor 0).bind fun _ => kernel _

theorem pointwise (f : Float → Float) : Blames call (call.pointwise f) := mapAs _ f

theorem binary (f : Float → Float → Float) : Blames call (call.binary f) := by
  refine (tensor 0).bind fun lhs => right.bind fun rhs => ?_
  cases rhs with
  | inl rhs => exact kernel _
  | inr x => exact kernel _

theorem divide : Blames call call.divide := by
  refine (tensor 0).bind fun lhs => right.bind fun rhs => ?_
  cases rhs with
  | inl rhs => exact kernel _
  | inr x => exact kernel _

theorem clamp : Blames call call.clamp :=
  (float? "min").bind fun _ => (float? "max").bind fun _ => mapAs _ _

theorem linear : Blames call call.linear := by
  refine (tensor 0).bind fun x => (tensor 1).bind fun weight => ite (fail _) ?_
  refine (kernel _).bind fun product => ?_
  split
  · exact kernel _
  · exact pure _

theorem constantPad : Blames call call.constantPad :=
  (tensor 0).bind fun _ => (ints "pad").bind fun _ => (float "value" 0.0).bind fun _ =>
    ite (fail _) (kernel _)

theorem transpose : Blames call call.transpose :=
  (tensor 0).bind fun _ => (int "dim0").bind fun _ => (axis _ _).bind fun _ =>
    (int "dim1").bind fun _ => (axis _ _).bind fun _ => kernel _

theorem flatten : Blames call call.flatten := by
  refine (tensor 0).bind fun x => ite (kernel _) ?_
  dsimp only
  split
  · exact ite (kernel _) (fail _)
  · exact fail _

theorem reduce (mean : Bool) : Blames call (call.reduce mean) :=
  (tensor 0).bind fun _ => (reductionAxes _).bind fun _ => ite (fail _)
    ((dtype? "dtype").bind fun _ => kernel _)

theorem softmax : Blames call call.softmax :=
  (tensor 0).bind fun _ => (dtype? "dtype").bind fun _ => (int "dim").bind fun _ =>
    (axis _ _).bind fun _ => kernel _

theorem cumsum : Blames call call.cumsum :=
  (tensor 0).bind fun _ => (dtype? "dtype").bind fun _ => (int "dim").bind fun _ =>
    (axis _ _).bind fun _ => kernel _

theorem size : Blames call call.size := by
  refine (tensor 0).bind fun x => ?_
  split
  · exact pure _
  · exact pure _
  · refine ite (fail _) ?_
    split
    · exact fail _
    · exact (axis _ _).bind fun _ => pure _

theorem gelu : Blames call call.gelu := by
  unfold Call.gelu
  split
  · exact pointwise _
  · exact ite (pointwise _) (ite (pointwise _) (fail _))

/-! ## Nodes -/

theorem tensorResult : Blames call call.tensorResult := by
  unfold Call.tensorResult
  cases call.node.kind
  case relu | neg | abs => exact mapAs _ _
  case sigmoid | tanh | silu | exp | log | sqrt | erf => exact pointwise _
  case hardtanh | leakyRelu | elu =>
    repeat refine (float _ _).bind fun _ => ?_
    exact pointwise _
  case gelu => exact gelu
  case add | sub => exact (float _ _).bind fun _ => binary _
  case mul | pow | maximum | minimum => exact binary _
  case div => exact divide
  case clamp => exact clamp
  case prelu | matmul => exact (tensor 0).bind fun _ => (tensor 1).bind fun _ => kernel _
  case linear => exact linear
  case constantPad => exact constantPad
  case reshape => exact (tensor 0).bind fun _ => (ints "shape").bind fun _ => kernel _
  case permute =>
    exact (tensor 0).bind fun _ => (ints "dims").bind fun _ =>
      (mapM (fun n => axis n _) _).bind fun _ => kernel _
  case transpose => exact transpose
  case flatten => exact flatten
  case softmax => exact softmax
  case cumsum => exact cumsum
  case sum | mean => exact reduce _
  case dropout => exact ite (fail _) (tensor 0)
  case contiguous => exact tensor 0
  case constant | size | print | branch | loop | engineCall => exact fail _
  -- what is left is the conversion to another element type
  exact (tensor 0).bind fun _ => (dtype? "dtype").bind fun _ => pure _

theorem results : Blames call call.results := by
  unfold Call.results
  split
  · exact ok _
  · exact size.bind fun _ => pure _
  · exact ok _
  · exact tensorResult.bind fun _ => pure _

end Blames

end Reference.Call

/-! ## Steps -/

/-- Every error of the reference interpreter is a fault at the node that it runs. -/
theorem Reference.exists_fault_of_interpret {node : Node} {args : List Datum} {e : ExecError}
    (h : Reference.interpret node args = .error e) : ∃ fault, e = node.fault fault :=
  (Call.Blames.results : Call.Blames ⟨node, args⟩ _) e h

theorem Reference.interpret_ne_unbound (node : Node) (args : List Datum) (v : ValueId) :
    Reference.interpret node args ≠ .error (.unbound v) := by
  intro h
  obtain ⟨fault, hfault⟩ := exists_fault_of_interpret h
  cases hfault

variable {A : Accelerator}

/-- A call of an engine reads what it is given. -/
theorem HybridProgram.callEngine_ne_unbound (p : HybridProgram A) (node : Node)
    (args : List Datum) (v : ValueId) : p.callEngine node args ≠ .error (.unbound v) := by
  intro h
  unfold callEngine at h
  rcases Outcome.bind_eq_error.mp h with h | ⟨⟨number, engine⟩, -, h⟩
  · obtain ⟨fault, -, hfault⟩ := Outcome.mapError_eq_error.mp h
    cases hfault
  rcases Outcome.bind_eq_error.mp h with h | ⟨inputs, -, h⟩
  · obtain ⟨fault, -, hfault⟩ := Outcome.mapError_eq_error.mp h
    cases hfault
  rcases Outcome.bind_eq_error.mp h with h | ⟨results, -, h⟩
  · obtain ⟨cause, -, hcause⟩ := Outcome.mapError_eq_error.mp h
    cases hcause
  split at h
  · cases h
  · cases h

/-- The step of a program reports an unbound value only where its interpreter does. -/
theorem HybridProgram.interpret_of_step_eq_unbound {p : HybridProgram A} {interpret : Interpreter}
    {node : Node} {args : List Datum} {v : ValueId}
    (h : p.step interpret node args = .error (.unbound v)) :
    interpret node args = .error (.unbound v) := by
  unfold step at h
  split at h
  · exact absurd h (p.callEngine_ne_unbound node args v)
  · exact h

end HybridGraph
