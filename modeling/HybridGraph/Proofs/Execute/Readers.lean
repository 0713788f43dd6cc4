import HybridGraph.Lowering.Simplification
import HybridGraph.Proofs.Execute.Attributes
/-!
# What nodes read

The kinds whose attributes or second operand may be folded read their first operand, what stands on
their right if they take a number there, and the attributes that are named for them.  Calls that
agree on these (`Reference.Call.Alike`) have the same outcome, errors included:

    Alike kind call call' → kind.tensorOperands?.isSome ∨ kind.takesScalar →
      call'.results = call.results                                                (Alike.results)

An absent axis and an axis that is none read alike, and so do an element type and its scalar code.
-/

namespace HybridGraph.Reference.Call

open Folding

/-- Two calls of nodes of a kind that read the same. -/
structure Alike (kind : OpKind) (call call' : Call) : Prop where
  ofKind : call.node.kind = kind
  ofKind' : call'.node.kind = kind
  id : call'.node.id = call.node.id
  first : call'.arg? 0 = call.arg? 0
  right : kind.takesScalar = true → call'.right = call.right
  dtype : call'.dtype? "dtype" = call.dtype? "dtype"
  dim : (call'.attr? "dim").getD .none = (call.attr? "dim").getD .none
  named : ∀ name ∈ kind.attributeNames, mayBeAbsent name = false →
    call'.attr? name = call.attr? name

namespace Alike

variable {kind : OpKind} {call call' : Call} {name : String}

/-! ## Readers -/

theorem fault (h : Alike kind call call') (fault : NodeFault) :
    call'.node.fault fault = call.node.fault fault := by
  rw [Node.fault, Node.fault, h.id, h.ofKind, h.ofKind']

theorem fail {α : Type} (h : Alike kind call call') (fault : NodeFault) :
    (call'.fail fault : Except ExecError α) = call.fail fault :=
  congrArg Except.error (h.fault fault)

theorem kernel {α : Type} (h : Alike kind call call') (result : Except KernelError α) :
    call'.kernel result = call.kernel result := by
  unfold Call.kernel
  simp only [h.fault]

theorem tensor (h : Alike kind call call') : call'.tensor 0 = call.tensor 0 := by
  unfold Call.tensor
  simp only [h.first, h.fail]

theorem axis (h : Alike kind call call') (n : Int) (rank : Nat) :
    call'.axis n rank = call.axis n rank := h.kernel _

theorem float? (h : Alike kind call call') (hname : name ∈ kind.attributeNames)
    (hgiven : mayBeAbsent name = false) : call'.float? name = call.float? name := by
  unfold Call.float?
  simp only [h.named name hname hgiven, h.fail]

theorem float (h : Alike kind call call') (default : Float) (hname : name ∈ kind.attributeNames)
    (hgiven : mayBeAbsent name = false) : call'.float name default = call.float name default := by
  unfold Call.float
  rw [h.float? hname hgiven]

theorem int (h : Alike kind call call') (hname : name ∈ kind.attributeNames)
    (hgiven : mayBeAbsent name = false) : call'.int name = call.int name := by
  unfold Call.int
  simp only [h.named name hname hgiven, h.fail]

theorem flag (h : Alike kind call call') (hname : name ∈ kind.attributeNames)
    (hgiven : mayBeAbsent name = false) : call'.flag name = call.flag name := by
  unfold Call.flag
  rw [h.named name hname hgiven]

theorem ints (h : Alike kind call call') (hname : name ∈ kind.attributeNames)
    (hgiven : mayBeAbsent name = false) : call'.ints name = call.ints name := by
  unfold Call.ints
  simp only [h.named name hname hgiven, h.fail]

/-- The axis is given alike, or absent on one side and none on the other. -/
theorem dim_cases (h : Alike kind call call') : call'.attr? "dim" = call.attr? "dim" ∨
    call'.attr? "dim" = none ∧ call.attr? "dim" = some .none ∨
    call'.attr? "dim" = some .none ∧ call.attr? "dim" = none := by
  have hdim := h.dim
  cases hleft : call'.attr? "dim" <;> cases hright : call.attr? "dim" <;> simp_all

theorem int_dim (h : Alike kind call call') : call'.int "dim" = call.int "dim" := by
  unfold Call.int
  simp only [h.fail]
  rcases h.dim_cases with he | ⟨hleft, hright⟩ | ⟨hleft, hright⟩
  · rw [he]
  · rw [hleft, hright]
    rfl
  · rw [hleft, hright]
    rfl

theorem reductionAxes (h : Alike kind call call') (rank : Nat) :
    call'.reductionAxes rank = call.reductionAxes rank := by
  unfold Call.reductionAxes
  simp only [h.fail, h.axis]
  rcases h.dim_cases with he | ⟨hleft, hright⟩ | ⟨hleft, hright⟩
  · rw [he]
  · rw [hleft, hright]
  · rw [hleft, hright]

theorem size (h : Alike kind call call') : call'.size = call.size := by
  unfold Call.size
  simp only [h.tensor, h.fail, h.axis]
  rcases h.dim_cases with he | ⟨hleft, hright⟩ | ⟨hleft, hright⟩
  · rw [he]
  · rw [hleft, hright]
  · rw [hleft, hright]

/-! ## Families of operations -/

theorem mapAs (h : Alike kind call call') (dtype : DType → DType) (f : Float → Float) :
    call'.mapAs dtype f = call.mapAs dtype f := by
  unfold Call.mapAs
  simp only [h.tensor, h.kernel]

theorem pointwise (h : Alike kind call call') (f : Float → Float) :
    call'.pointwise f = call.pointwise f := h.mapAs _ f

theorem binary (h : Alike kind call call') (htakes : kind.takesScalar = true)
    (f : Float → Float → Float) : call'.binary f = call.binary f := by
  unfold Call.binary
  simp only [h.tensor, h.kernel, h.right htakes]

theorem divide (h : Alike kind call call') (htakes : kind.takesScalar = true) :
    call'.divide = call.divide := by
  unfold Call.divide
  simp only [h.tensor, h.kernel, h.right htakes]

theorem gelu (h : Alike .gelu call call') : call'.gelu = call.gelu := by
  unfold Call.gelu
  simp only [h.named "approximate" (by decide) (by decide), h.pointwise, h.fail]

theorem clamp (h : Alike .clamp call call') : call'.clamp = call.clamp := by
  have hlow : call'.float? "min" = call.float? "min" := h.float? (by decide) (by decide)
  have hhigh : call'.float? "max" = call.float? "max" := h.float? (by decide) (by decide)
  unfold Call.clamp
  simp only [hlow, hhigh, h.mapAs]

theorem constantPad (h : Alike .constantPad call call') :
    call'.constantPad = call.constantPad := by
  have hpad : call'.ints "pad" = call.ints "pad" := h.ints (by decide) (by decide)
  have hvalue : call'.float "value" 0.0 = call.float "value" 0.0 :=
    h.float 0.0 (by decide) (by decide)
  unfold Call.constantPad
  simp only [hpad, hvalue, h.tensor, h.kernel, h.fail]

theorem transpose (h : Alike .transpose call call') : call'.transpose = call.transpose := by
  have hfirst : call'.int "dim0" = call.int "dim0" := h.int (by decide) (by decide)
  have hsecond : call'.int "dim1" = call.int "dim1" := h.int (by decide) (by decide)
  unfold Call.transpose
  simp only [hfirst, hsecond, h.tensor, h.kernel, h.axis]

theorem flatten (h : Alike .flatten call call') : call'.flatten = call.flatten := by
  have hfirst := h.named "start_dim" (by decide) (by decide)
  have hlast := h.named "end_dim" (by decide) (by decide)
  unfold Call.flatten
  simp only [hfirst, hlast, h.tensor, h.kernel, h.fail]

theorem reduce (h : Alike kind call call') (hkeep : "keepdim" ∈ kind.attributeNames) (mean : Bool) :
    call'.reduce mean = call.reduce mean := by
  have hflag := h.flag hkeep (by decide)
  unfold Call.reduce
  simp only [hflag, h.reductionAxes, h.dtype, h.tensor, h.kernel, h.fail]

theorem softmax (h : Alike kind call call') : call'.softmax = call.softmax := by
  unfold Call.softmax
  simp only [h.int_dim, h.dtype, h.tensor, h.kernel, h.axis]

theorem cumsum (h : Alike kind call call') : call'.cumsum = call.cumsum := by
  unfold Call.cumsum
  simp only [h.int_dim, h.dtype, h.tensor, h.kernel, h.axis]

/-! ## Outcomes -/

theorem tensorResult (h : Alike kind call call')
    (hkind : kind.tensorOperands?.isSome = true ∨ kind.takesScalar = true) :
    call'.tensorResult = call.tensorResult := by
  have hfloat : ∀ name default, name ∈ kind.attributeNames → mayBeAbsent name = false →
      call'.float name default = call.float name default := fun _ default => h.float default
  unfold Call.tensorResult
  rw [h.ofKind, h.ofKind']
  cases kind with
  | hardtanh =>
    simp only [hfloat "min_val" _ (by decide) (by decide),
      hfloat "max_val" _ (by decide) (by decide), h.pointwise]
  | leakyRelu => simp only [hfloat "negative_slope" _ (by decide) (by decide), h.pointwise]
  | elu =>
    simp only [hfloat "alpha" _ (by decide) (by decide), hfloat "scale" _ (by decide) (by decide),
      hfloat "input_scale" _ (by decide) (by decide), h.pointwise]
  | gelu => exact h.gelu
  | add | sub => simp only [hfloat "alpha" _ (by decide) (by decide), h.binary rfl]
  | mul | pow | maximum | minimum => exact h.binary rfl _
  | div => exact h.divide rfl
  | clamp => exact h.clamp
  | constantPad => exact h.constantPad
  | reshape =>
    have hshape : call'.ints "shape" = call.ints "shape" := h.ints (by decide) (by decide)
    simp only [hshape, h.tensor, h.kernel]
  | permute =>
    have hdims : call'.ints "dims" = call.ints "dims" := h.ints (by decide) (by decide)
    simp only [hdims, h.tensor, h.kernel, h.axis]
  | transpose => exact h.transpose
  | flatten => exact h.flatten
  | softmax => exact h.softmax
  | sum | mean => exact h.reduce (by decide) _
  | «to» => simp only [h.dtype, h.tensor]
  | dropout =>
    have htrain : call'.flag "train" = call.flag "train" := h.flag (by decide) (by decide)
    simp only [htrain, h.tensor, h.fail]
  | contiguous => exact h.tensor
  | cumsum => exact h.cumsum
  | size => exact h.fail _
  | _ => simp [OpKind.tensorOperands?, OpKind.takesScalar] at hkind

/-- Calls that read the same have the same outcome. -/
theorem results (h : Alike kind call call')
    (hkind : kind.tensorOperands?.isSome = true ∨ kind.takesScalar = true) :
    call'.results = call.results := by
  unfold Call.results
  rw [h.ofKind, h.ofKind', h.tensorResult hkind, h.size]
  cases kind with
  | constant => simp [OpKind.tensorOperands?, OpKind.takesScalar] at hkind
  | _ => rfl

end Alike

end HybridGraph.Reference.Call
