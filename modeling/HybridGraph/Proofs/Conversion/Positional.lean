import HybridGraph.Conversion.Registry
/-!
# Converters read by position

A converter finds its operands by their position and looks at nothing else of its node but the
kind, the attributes and the number of operands: no id, no value name, no declared type.
`Emit.Positional` says so of a computation, by the steps it is made of.  It does not look at the
name of a tensor either: `Emit.Uniform` says of two computations that they take the same steps, one
of them over renamed tensors, and which of them may report an axis that is missing.  Every
converter of the standard registry is of this kind:

    Registry.standard A kind = some converter →
      Emit.Uniform σ (kind = .transpose) (List.map σ) converter.convert converter.convert
                                                               (Registry.uniform_of_standard)
    Registry.standard A kind = some converter → converter.convert.Positional
                                                            (Registry.positional_of_standard)

What such a computation can do is then shown once, by induction on its steps, and not converter by
converter.
-/

namespace HybridGraph

variable {A : Accelerator} {α β : Type}

/-! ## Calls -/

/-- Two nodes ask for the same operation on equally many operands. -/
structure Node.SameCall (a b : Node) : Prop where
  kind : a.kind = b.kind
  attrs : a.attrs = b.attrs
  arity : a.inputs.length = b.inputs.length

namespace Node.SameCall

variable {a b : Node}

theorem attr? (h : a.SameCall b) : a.attr? = b.attr? := by
  unfold Node.attr?
  rw [h.attrs]

theorem int? (h : a.SameCall b) : a.int? = b.int? := by
  unfold Node.int?
  rw [h.attr?]

theorem float? (h : a.SameCall b) : a.float? = b.float? := by
  unfold Node.float?
  rw [h.attr?]

theorem bool? (h : a.SameCall b) : a.bool? = b.bool? := by
  unfold Node.bool?
  rw [h.attr?]

theorem str? (h : a.SameCall b) : a.str? = b.str? := by
  unfold Node.str?
  rw [h.attr?]

theorem ints? (h : a.SameCall b) : a.ints? = b.ints? := by
  unfold Node.ints?
  rw [h.attr?]

theorem dtype? (h : a.SameCall b) : a.dtype? = b.dtype? := by
  unfold Node.dtype?
  rw [h.attr?]

theorem bound? (h : a.SameCall b) : a.bound? = b.bound? := by
  unfold Node.bound?
  rw [h.attr?]

theorem axes? (h : a.SameCall b) : a.axes? = b.axes? := by
  unfold Node.axes?
  rw [h.attr?]

end Node.SameCall

/-! ## Positional computations -/

/-- A computation made of steps that find operands by position and see of the node what calls have
in common. -/
inductive Emit.Positional : {α : Type} → Emit A α → Prop where
  | done {α : Type} (a : α) : Positional (pure a)
  | fail {α : Type} (fault : ConversionFault) : Positional (Emit.fail fault : Emit A α)
  | input (operand : Nat) : Positional (Emit.input operand)
  | describe (tensor : TensorRef) : Positional (Emit.describe tensor)
  | layer (kind : LayerKind) (inputs : List TensorRef) : Positional (Emit.layer kind inputs)
  | narrowing {α : Type} {f : EmitSite → Emit A α} (hf : ∀ site, Positional (f site))
      (hsame : ∀ site other, site.truncateWide = other.truncateWide → f site = f other) :
      Positional (read >>= f)
  | node {α : Type} {f : Node → Emit A α} (hf : ∀ node, Positional (f node))
      (hsame : ∀ a b, a.SameCall b → f a = f b) : Positional (Emit.node >>= f)
  | bind {α β : Type} {m : Emit A α} {f : α → Emit A β} (hm : Positional m)
      (hf : ∀ a, Positional (f a)) : Positional (m >>= f)

/-! ## Uniform computations -/

/-- A converter used an axis that its operand does not have. -/
def ConversionCause.IsMissingAxis : ConversionCause → Prop
  | .failed (.missingAxis _ _) => True
  | _ => False

/-- Two computations made of the same steps: the second has tensors under other names, and its
answer is that of the first, renamed.  `missing` says whether an axis may be found missing. -/
inductive Emit.Uniform (σ : TensorRef → TensorRef) (missing : Prop) :
    {α β : Type} → (α → β) → Emit A α → Emit A β → Prop where
  | done {α β : Type} (f : α → β) (a : α) : Uniform σ missing f (pure a) (pure (f a))
  | fail {α β : Type} (f : α → β) {fault : ConversionFault}
      (hfault : (ConversionCause.failed fault).IsMissingAxis → missing) :
      Uniform σ missing f (Emit.fail fault : Emit A α) (Emit.fail fault)
  | input (operand : Nat) : Uniform σ missing σ (Emit.input operand) (Emit.input operand)
  | describe (tensor : TensorRef) :
      Uniform σ missing id (Emit.describe tensor) (Emit.describe (σ tensor))
  | layer (kind : LayerKind) (inputs : List TensorRef) :
      Uniform σ missing σ (Emit.layer kind inputs) (Emit.layer kind (inputs.map σ))
  | narrowing {α β : Type} {f : α → β} {k : EmitSite → Emit A α} {k' : EmitSite → Emit A β}
      (hk : ∀ site, Uniform σ missing f (k site) (k' site))
      (hsame : ∀ site other, site.truncateWide = other.truncateWide → k site = k other) :
      Uniform σ missing f (read >>= k) (read >>= k')
  | node {α β : Type} {f : α → β} {k : Node → Emit A α} {k' : Node → Emit A β}
      (hk : ∀ node, Uniform σ missing f (k node) (k' node))
      (hsame : ∀ a b, a.SameCall b → k a = k b) :
      Uniform σ missing f (Emit.node >>= k) (Emit.node >>= k')
  | bind {α β γ δ : Type} {f : α → β} {g : γ → δ} {m : Emit A α} {m' : Emit A β}
      {k : α → Emit A γ} {k' : β → Emit A δ} (hm : Uniform σ missing f m m')
      (hk : ∀ a, Uniform σ missing g (k a) (k' (f a))) : Uniform σ missing g (m >>= k) (m' >>= k')

namespace Emit.Uniform

variable {γ δ : Type} {σ : TensorRef → TensorRef} {missing : Prop} {f : α → β} {g : γ → δ}

theorem positional {m : Emit A α} {m' : Emit A β} (h : Uniform σ missing f m m') :
    m.Positional := by
  induction h with
  | done _ a => exact .done a
  | fail _ _ => exact .fail _
  | input operand => exact .input operand
  | describe tensor => exact .describe tensor
  | layer kind inputs => exact .layer kind inputs
  | narrowing _ hsame ih => exact .narrowing ih hsame
  | node _ hsame ih => exact .node ih hsame
  | bind _ _ ihm ihk => exact .bind ihm ihk

/-- Both go on with the same data. -/
theorem same {m m' : Emit A α} {k : α → Emit A γ} {k' : α → Emit A δ}
    (hm : Uniform σ missing id m m') (hk : ∀ a, Uniform σ missing g (k a) (k' a)) :
    Uniform σ missing g (m >>= k) (m' >>= k') := bind hm hk

theorem orFail (value? : Option α) {fault : ConversionFault}
    (hfault : (ConversionCause.failed fault).IsMissingAxis → missing) :
    Uniform σ missing id (Emit.orFail value? fault : Emit A α) (Emit.orFail value? fault) := by
  cases value? with
  | none => exact .fail id hfault
  | some a => exact .done id a

theorem needFloat (desc : TensorSig) :
    Uniform σ missing id (Emit.needFloat desc : Emit A Unit) (Emit.needFloat desc) := by
  unfold Emit.needFloat
  split
  · exact .done id ()
  · exact .fail id False.elim

theorem axis (n : Int) (rank : Nat) :
    Uniform σ missing id (Emit.axis n rank : Emit A Nat) (Emit.axis n rank) :=
  orFail _ False.elim

theorem float (name : String) :
    Uniform σ missing id (Emit.float name : Emit A Float) (Emit.float name) :=
  .node (fun _ => orFail _ False.elim) fun a b h => by rw [h.float?]

theorem ints (name : String) :
    Uniform σ missing id (Emit.ints name : Emit A (List Int)) (Emit.ints name) :=
  .node (fun _ => orFail _ False.elim) fun a b h => by rw [h.ints?]

theorem scalar (value : Float) (like : TensorSig) :
    Uniform σ missing σ (Emit.scalar value like : Emit A TensorRef) (Emit.scalar value like) :=
  .layer _ []

theorem constant (tensor : Tensor) :
    Uniform σ missing σ (Emit.constant tensor : Emit A TensorRef) (Emit.constant tensor) := by
  unfold Emit.constant
  split
  · exact .layer _ []
  · refine .narrowing (fun site => ?_) fun site other h => by rw [h]
    split
    · exact .layer _ []
    · exact .fail σ False.elim

/-- A check that only some nodes need before the rest runs. -/
theorem guard {c : Prop} [Decidable c] {check : Emit A PUnit} {rest : PUnit → Emit A γ}
    {rest' : PUnit → Emit A δ} (hcheck : Uniform σ missing id check check)
    (hrest : Uniform σ missing g (rest ⟨⟩) (rest' ⟨⟩)) :
    Uniform σ missing g (if c then check >>= rest else rest ⟨⟩)
      (if c then check >>= rest' else rest' ⟨⟩) := by
  split
  · exact .same hcheck fun _ => hrest
  · exact hrest

theorem mapM {k : γ → Emit A δ} (hk : ∀ c, Uniform σ missing id (k c) (k c)) (cs : List γ) :
    Uniform σ missing id (cs.mapM k) (cs.mapM k) := by
  induction cs with
  | nil => exact .done id []
  | cons c cs ih =>
    rw [List.mapM_cons]
    exact .same (hk c) fun d => .same ih fun ds => .done id (d :: ds)

end Emit.Uniform

/-! ## Converters -/

namespace Converter

open Emit

variable {σ : TensorRef → TensorRef} {missing : Prop}

theorem uniform_constant :
    Uniform σ missing σ (Converter.constant : Emit A TensorRef) Converter.constant := by
  refine .node (fun node => ?_) fun a b h => by simp only [h.attr?]
  exact .same (.orFail _ False.elim) fun tensor => .constant tensor

theorem uniform_activation (function : Activation) :
    Uniform σ missing σ (activation function : Emit A TensorRef) (activation function) :=
  .bind (.input 0) fun x => .same (.describe x) fun desc => .same (.needFloat desc) fun _ =>
    .layer _ [x]

theorem uniform_hardtanh : Uniform σ missing σ (hardtanh : Emit A TensorRef) hardtanh :=
  .same (.float _) fun _ => .same (.float _) fun _ => uniform_activation _

theorem uniform_leakyRelu : Uniform σ missing σ (leakyRelu : Emit A TensorRef) leakyRelu :=
  .same (.float _) fun _ => uniform_activation _

theorem uniform_elu : Uniform σ missing σ (elu : Emit A TensorRef) elu :=
  .same (.float _) fun _ => uniform_activation _

theorem uniform_scaled (x : TensorRef) (factor : Float) (like : TensorSig) :
    Uniform σ missing σ (scaled x factor like : Emit A TensorRef) (scaled (σ x) factor like) :=
  .bind (.scalar factor like) fun y => .layer _ [x, y]

theorem uniform_tanhTerm (x : TensorRef) (like : TensorSig) :
    Uniform σ missing σ (tanhTerm x like : Emit A TensorRef) (tanhTerm (σ x) like) :=
  .bind (.scalar _ _) fun three => .bind (.layer _ [x, three]) fun cube =>
    .bind (uniform_scaled cube _ _) fun weighted => .bind (.layer _ [x, weighted]) fun sum =>
      .bind (uniform_scaled sum _ _) fun argument => .layer _ [argument]

theorem uniform_erfTerm (x : TensorRef) (like : TensorSig) :
    Uniform σ missing σ (erfTerm x like : Emit A TensorRef) (erfTerm (σ x) like) :=
  .bind (uniform_scaled x _ _) fun argument => .layer _ [argument]

theorem uniform_gelu : Uniform σ missing σ (gelu : Emit A TensorRef) gelu := by
  refine .bind (.input 0) fun x => .same (.describe x) fun desc => .same (.needFloat desc)
    fun _ => .node (fun node => ?_) fun a b h => by simp only [h.str?]
  have hrest : ∀ inner, Uniform σ missing σ (do
      let one ← scalar 1.0 desc
      let shifted ← layer (.elementWise .sum) [inner, one]
      let half ← scaled x 0.5 desc
      layer (.elementWise .prod) [half, shifted] : Emit A TensorRef) (do
      let one ← scalar 1.0 desc
      let shifted ← layer (.elementWise .sum) [σ inner, one]
      let half ← scaled (σ x) 0.5 desc
      layer (.elementWise .prod) [half, shifted]) := fun inner =>
    .bind (.scalar _ _) fun one => .bind (.layer _ [inner, one]) fun shifted =>
      .bind (uniform_scaled x _ _) fun half => .layer _ [half, shifted]
  dsimp only
  split
  · exact .bind (uniform_tanhTerm x desc) hrest
  · exact .bind (uniform_erfTerm x desc) hrest

theorem uniform_silu : Uniform σ missing σ (silu : Emit A TensorRef) silu :=
  .bind (.input 0) fun x => .same (.describe x) fun desc => .same (.needFloat desc) fun _ =>
    .bind (.layer _ [x]) fun gate => .layer _ [x, gate]

theorem uniform_prelu : Uniform σ missing σ (prelu : Emit A TensorRef) prelu := by
  refine .bind (.input 0) fun x => .bind (.input 1) fun slope => .same (.describe x) fun desc =>
    .same (.needFloat desc) fun _ => .same (.describe slope) fun slopeDesc => ?_
  exact .guard (.fail id False.elim) (.layer _ [x, slope])

theorem uniform_rightOperand (like : TensorSig) :
    Uniform σ missing σ (rightOperand like : Emit A TensorRef) (rightOperand like) := by
  refine .node (fun node => ?_) fun a b h => by simp only [h.arity, h.float?]
  split
  · exact .input 1
  · exact .same (.orFail _ False.elim) fun value => .scalar value like

theorem uniform_binary : Uniform σ missing σ (binary : Emit A TensorRef) binary := by
  refine .node (fun node => ?_) fun a b h => by simp only [h.kind, h.float?]
  refine .same (.orFail _ False.elim) fun op => .bind (.input 0) fun lhs =>
    .same (.describe lhs) fun desc => .bind (uniform_rightOperand desc) fun rhs =>
      .same (.describe rhs) fun rhsDesc => ?_
  refine .guard (.fail id False.elim) ?_
  dsimp only
  split
  · exact .bind (uniform_scaled rhs _ _) fun factor => .layer _ [lhs, factor]
  · exact .bind (.done σ rhs) fun rhs => .layer _ [lhs, rhs]

theorem uniform_unary : Uniform σ missing σ (unary : Emit A TensorRef) unary := by
  refine .node (fun node => ?_) fun a b h => by simp only [h.kind]
  exact .same (.orFail _ False.elim) fun _ => .bind (.input 0) fun x => .layer _ [x]

theorem uniform_limit (op : BinaryOp) (bound : Option Float) (like : TensorSig) (x : TensorRef) :
    Uniform σ missing σ (limit op bound like x : Emit A TensorRef) (limit op bound like (σ x)) := by
  cases bound with
  | none => exact .done σ x
  | some value => exact .bind (.scalar value like) fun y => .layer _ [x, y]

theorem uniform_clamp : Uniform σ missing σ (clamp : Emit A TensorRef) clamp := by
  refine .bind (.input 0) fun x => .same (.describe x) fun desc =>
    .node (fun node => ?_) fun a b h => by simp only [h.bound?]
  have hlimits : ∀ low high, Uniform σ missing σ (do
      limit .min high desc (← limit .max low desc x) : Emit A TensorRef) (do
      limit .min high desc (← limit .max low desc (σ x))) := fun low high =>
    .bind (uniform_limit _ _ _ x) fun y => uniform_limit _ _ _ y
  split
  · split
    · exact .layer _ [x]
    · exact hlimits _ _
  · exact hlimits _ _

theorem uniform_needMatrix (x : TensorRef) :
    Uniform σ missing id (needMatrix x : Emit A Unit) (needMatrix (σ x)) := by
  refine .same (.describe x) fun desc => .same (.needFloat desc) fun _ => ?_
  split
  · exact .fail id False.elim
  · exact .done id _

theorem uniform_matmul : Uniform σ missing σ (matmul : Emit A TensorRef) matmul :=
  .bind (.input 0) fun lhs => .bind (.input 1) fun rhs => .same (uniform_needMatrix lhs) fun _ =>
    .same (uniform_needMatrix rhs) fun _ => .layer _ [lhs, rhs]

theorem uniform_shuffle (x : TensorRef) (permutation : Option (List Nat))
    (target : Option (List Int)) : Uniform σ missing σ
      (shuffle x permutation target : Emit A TensorRef) (shuffle (σ x) permutation target) :=
  .layer _ [x]

theorem uniform_linear : Uniform σ missing σ (linear : Emit A TensorRef) linear := by
  refine .bind (.input 0) fun x => .bind (.input 1) fun weight => .same (.describe x) fun desc =>
    .same (.needFloat desc) fun _ => .same (.describe weight) fun weightDesc =>
      .guard (.fail id False.elim) ?_
  refine .bind (uniform_shuffle weight _ _) fun permuted => .bind (.layer _ [x, permuted])
    fun product => .node (fun node => ?_) fun a b h => by simp only [h.arity]
  split
  · exact .bind (.input 2) fun bias => .layer _ [product, bias]
  · exact .done σ product

theorem uniform_softmax : Uniform σ missing σ (softmax : Emit A TensorRef) softmax := by
  refine .bind (.input 0) fun x => .same (.describe x) fun desc => .same (.needFloat desc)
    fun _ => .node (fun node => ?_) fun a b h => by simp only [h.int?]
  exact .same (.orFail _ False.elim) fun dim => .same (.axis dim _) fun _ => .layer _ [x]

theorem uniform_reduce : Uniform σ missing σ (reduce : Emit A TensorRef) reduce := by
  refine .node (fun node => ?_) fun a b h => by simp only [h.kind, h.axes?, h.bool?]
  dsimp only
  generalize (if node.kind = .mean then ReduceOp.mean else .sum) = op
  refine .bind (.input 0) fun x => .same (.describe x) fun desc => ?_
  refine .guard (.needFloat desc) (.same (.orFail _ False.elim) fun axes? => ?_)
  split
  · exact .same (.mapM (fun n => .axis n _) _) fun _ => .layer _ [x]
  · exact .same (.done id _) fun _ => .layer _ [x]

theorem uniform_reshape : Uniform σ missing σ (reshape : Emit A TensorRef) reshape :=
  .bind (.input 0) fun x => .same (.ints _) fun _ => uniform_shuffle x _ _

theorem uniform_permute : Uniform σ missing σ (permute : Emit A TensorRef) permute := by
  refine .bind (.input 0) fun x => .same (.describe x) fun desc => .same (.ints _) fun dims =>
    .guard (.fail id False.elim) ?_
  refine .same (.mapM (fun n => .axis n _) dims) fun permutation => ?_
  split
  · exact .fail σ False.elim
  · exact uniform_shuffle x _ _

/-- Here an axis may be missing. -/
theorem uniform_needAxis (hmissing : missing) (axis rank : Nat) :
    Uniform σ missing id (needAxis axis rank : Emit A Unit) (needAxis axis rank) := by
  unfold needAxis
  split
  · exact .done id ()
  · exact .fail id fun _ => hmissing

theorem uniform_transpose (hmissing : missing) :
    Uniform σ missing σ (transpose : Emit A TensorRef) transpose := by
  refine .bind (.input 0) fun x => .same (.describe x) fun desc =>
    .node (fun node => ?_) fun a b h => by simp only [h.int?]
  split
  · exact .same (.axis _ _) fun _ => .same (.axis _ _) fun _ =>
      .same (uniform_needAxis hmissing _ _) fun _ => .same (uniform_needAxis hmissing _ _)
        fun _ => uniform_shuffle x _ _
  · exact .fail σ False.elim

theorem uniform_trailingExtent (entry : Dimension × Nat) :
    Uniform σ missing id (trailingExtent entry : Emit A Int) (trailingExtent entry) := by
  unfold trailingExtent
  split
  · exact .done id _
  · exact .fail id False.elim

theorem uniform_flatten : Uniform σ missing σ (flatten : Emit A TensorRef) flatten := by
  refine .bind (.input 0) fun x => .same (.describe x) fun desc => ?_
  split
  · exact uniform_shuffle x _ _
  · refine .node (fun node => ?_) fun a b h => by simp only [h.int?]
    refine .same (.axis _ _) fun first => .same (.axis _ _) fun last =>
      .guard (.fail id False.elim) ?_
    exact .same (.mapM uniform_trailingExtent _) fun _ => uniform_shuffle x _ _

theorem uniform_pad : Uniform σ missing σ (pad : Emit A TensorRef) pad := by
  refine .bind (.input 0) fun x => .same (.describe x) fun desc => .same (.ints _) fun amounts =>
    .guard (.fail id False.elim) ?_
  exact .node (fun _ => .layer _ [x]) fun a b h => by simp only [h.float?]

theorem uniform_cast : Uniform σ missing σ (cast : Emit A TensorRef) cast := by
  refine .bind (.input 0) fun x => .node (fun node => ?_) fun a b h => by simp only [h.dtype?]
  split
  · exact .layer _ [x]
  · exact .same (.describe x) fun _ => .layer _ [x]

theorem uniform_copy : Uniform σ missing σ (copy : Emit A TensorRef) copy :=
  .bind (.input 0) fun x => .same (.describe x) fun _ => .layer _ [x]

end Converter

/-! ## Top theorems -/

namespace Registry

variable {σ : TensorRef → TensorRef} {kind : OpKind} {converter : Converter A}

/-- Every converter of the standard registry takes the same steps over renamed tensors, and only an
exchange of axes may find one missing. -/
theorem uniform_of_standard (h : Registry.standard A kind = some converter) :
    Emit.Uniform σ (kind = .transpose) (List.map σ) converter.convert converter.convert := by
  have hsingle : ∀ {support : Graph → Node → Support} {convert : Emit A TensorRef}
      {missing : Prop}, Emit.Uniform σ missing σ convert convert →
      some (single support convert) = some converter →
      Emit.Uniform σ missing (List.map σ) converter.convert converter.convert := by
    rintro support convert missing hconvert hsome
    obtain rfl := Option.some.inj hsome
    exact .bind hconvert fun tensor => .done (List.map σ) [tensor]
  cases kind with
  | relu | sigmoid | tanh => exact hsingle (Converter.uniform_activation _) h
  | hardtanh => exact hsingle Converter.uniform_hardtanh h
  | leakyRelu => exact hsingle Converter.uniform_leakyRelu h
  | elu => exact hsingle Converter.uniform_elu h
  | gelu => exact hsingle Converter.uniform_gelu h
  | silu => exact hsingle Converter.uniform_silu h
  | prelu => exact hsingle Converter.uniform_prelu h
  | add | sub | mul | div | pow | maximum | minimum => exact hsingle Converter.uniform_binary h
  | neg | abs | exp | log | sqrt | erf => exact hsingle Converter.uniform_unary h
  | clamp => exact hsingle Converter.uniform_clamp h
  | matmul => exact hsingle Converter.uniform_matmul h
  | linear => exact hsingle Converter.uniform_linear h
  | softmax => exact hsingle Converter.uniform_softmax h
  | sum | mean => exact hsingle Converter.uniform_reduce h
  | reshape => exact hsingle Converter.uniform_reshape h
  | permute => exact hsingle Converter.uniform_permute h
  | transpose => exact hsingle (Converter.uniform_transpose rfl) h
  | flatten => exact hsingle Converter.uniform_flatten h
  | constantPad => exact hsingle Converter.uniform_pad h
  | «to» => exact hsingle Converter.uniform_cast h
  | dropout | contiguous => exact hsingle Converter.uniform_copy h
  | constant => exact hsingle Converter.uniform_constant h
  | cumsum | size | branch | loop | print | engineCall => cases h

/-- Every converter of the standard registry is positional. -/
theorem positional_of_standard (h : Registry.standard A kind = some converter) :
    converter.convert.Positional := (uniform_of_standard (σ := id) h).positional

end Registry

end HybridGraph
