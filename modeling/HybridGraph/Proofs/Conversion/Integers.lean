import HybridGraph.Proofs.Conversion.Executing
import HybridGraph.Proofs.Conversion.Predicates
import HybridGraph.Proofs.Kernel.Pointwise
/-!
# Integers on engines

The interpreter computes an element of a result in doubles and stores it once.  An engine stores
each number of a node and each layer's result in the element type: a sum with a factor becomes a
product, which is stored, and then a sum, and two bounds bind one after the other.  What is stored
goes by words, so an engine that reads `b` where the interpreter has `x` is right if the words of
the results agree (`Registry.computes_binary`).  They do for larger, smaller and bounded numbers,
since a word keeps the order, and for sums, differences and products of numbers that the element
type holds:

    node.Lossless dtype ts → Reference.interpret node (ts.map .tensor) = .ok [.tensor y] →
      s.Computes engine s' slots out y                                       (computes_integers)

A number that the type does not hold, as `200` among bytes, is stored as another before it is added.
-/

namespace HybridGraph

open Number (value)

/-! ## Right-hand sides -/

namespace Node

variable {node : Node} {dtype : DType} {ts : List Tensor} {b x : Float}

/-- What the right-hand side of a node is multiplied by. -/
def factor (node : Node) : Float := (node.float? "alpha").getD 1.0

/-- The number on the right-hand side of a node that has one operand. -/
def number? (node : Node) : Option Float :=
  if node.inputs.length = 2 then none else node.float? "other"

theorem join_bound? (node : Node) (name : String) : (node.bound? name).join = node.float? name := by
  unfold bound? float?
  cases node.attr? name with
  | none => rfl
  | some a => cases a <;> rfl

/-- Where the interpreter has the number `x` on the right-hand side, an engine reads `b`. -/
inductive Reads (node : Node) (dtype : DType) (ts : List Tensor) : Float → Float → Prop
  | element {u : Tensor} {x : Float} (hu : ts[1]? = some u) (hx : x ∈ u.doubles) :
      Reads node dtype ts x x
  | number {x : Float} (h : node.number? = some x) : Reads node dtype ts (dtype.rounded x) x

/-- What an engine makes of a number on the right-hand side. -/
def scaled (node : Node) (dtype : DType) (b : Float) : Float :=
  if node.factor != 1.0 then dtype.rounded (b * dtype.rounded node.factor) else b

/-- The numbers with which a node adds or multiplies are held by the element type. -/
structure Exact (node : Node) (dtype : DType) (ts : List Tensor) : Prop where
  number : ∀ x, node.number? = some x → dtype.Holds x
  factor : (node.factor != 1.0) = true → dtype.Holds node.factor
  product : (node.factor != 1.0) = true → ∀ b x, node.Reads dtype ts b x →
    dtype.Holds (x * node.factor)

theorem Exact.value_eq (h : node.Exact dtype ts) (hreads : node.Reads dtype ts b x) :
    value b = value x := by
  cases hreads with
  | element => rfl
  | number hx => exact (h.number x hx).value_eq

/-- Multiplied by the factor, a number on the right-hand side is what it should be. -/
theorem Exact.value_scaled (h : node.Exact dtype ts) (hdtype : dtype ∈ [DType.i8, .i32, .bool])
    (hreads : node.Reads dtype ts b x) : value (node.scaled dtype b) = value (x * node.factor) := by
  unfold scaled
  by_cases hfactor : (node.factor != 1.0) = true
  · have hproduct : value (b * dtype.rounded node.factor) = value (x * node.factor) :=
      (Number.value_mul_left (h.value_eq hreads)).trans
        (Number.value_mul_right (h.factor hfactor).value_eq)
    rw [if_pos hfactor, DType.rounded_eq_of_value hdtype hproduct]
    exact (h.product hfactor b x hreads).value_eq
  · have hone : (node.factor == 1.0) = true := by simpa [bne] using hfactor
    rw [if_neg hfactor, h.value_eq hreads, Number.value_mul_of_one hone]

/-- What an engine stores of a node's numbers is as good as the numbers.  The interpreter knows
factors of sums and differences only. -/
def Lossless (node : Node) (dtype : DType) (ts : List Tensor) : Prop :=
  match node.kind with
  | .add | .sub => node.Exact dtype ts
  | .mul => node.Exact dtype ts ∧ (node.factor == 1.0) = true
  | .maximum | .minimum =>
    (∀ x, node.number? = some x → dtype.Orders x) ∧ (node.factor == 1.0) = true
  | .clamp => ∀ name ∈ ["min", "max"], ∀ x, node.float? name = some x → dtype.Orders x
  | _ => True

/-- A factor of one leaves the numbers alone. -/
theorem scaled_of_one (h : (node.factor == 1.0) = true) (b : Float) : node.scaled dtype b = b := by
  unfold scaled
  rw [bne, h]
  rfl

/-- Numbers on the right-hand side are kept in order, and they have the words that an engine
reads. -/
theorem orders_of_reads (hdtype : dtype ∈ [DType.i8, .i32, .bool])
    (hts : ∀ t ∈ ts, t.dtype = dtype ∧ t.WellFormed)
    (hnumber : ∀ x, node.number? = some x → dtype.Orders x) (hreads : node.Reads dtype ts b x) :
    dtype.Orders b ∧ dtype.Orders x ∧ dtype.word b = dtype.word x := by
  cases hreads with
  | element hu hx =>
    obtain ⟨rfl, hwell⟩ := hts _ (List.mem_of_getElem? hu)
    exact ⟨Tensor.orders_of_mem hdtype hwell hx, Tensor.orders_of_mem hdtype hwell hx, rfl⟩
  | number hx =>
    exact ⟨DType.orders_rounded hdtype x, hnumber x hx, DType.word_rounded hdtype x⟩

end Node

/-! ## The layers of element-wise nodes -/

namespace Converter

open Emit

variable {engine : Engine} {site : EmitSite} {s : EmitState Reference.accelerator} {known : Known}
  {t u y : Tensor} {d : TensorSig} {x : TensorRef}

theorem yields_scalar (hreduced : engine.reducedPrecision = false) (value : Float) :
    Yields engine (scalar value d) site s known
      (some (.full d.dtype (List.replicate d.rank 1) value)) :=
  .layer hreduced .nil

/-- A layer of two operands of one type. -/
theorem yields_elementWise {op : BinaryOp} {x z : TensorRef}
    (hreduced : engine.reducedPrecision = false) (hx : known x t) (hz : known z u)
    (hdtype : u.dtype = t.dtype) :
    Yields engine (Emit.layer (.elementWise op) [x, z]) site s known
      (Kernel.binary t u t.dtype (op.apply t.dtype)).toOption := by
  have hrun : (LayerKind.elementWise op).run [t, u] =
      Kernel.binary t u t.dtype (op.apply t.dtype) := by
    show Kernel.binary t u (Kernel.promote t.dtype u.dtype) (op.apply (Kernel.promote _ _)) = _
    rw [hdtype, Kernel.promote, if_pos rfl]
  exact hrun ▸ .layer hreduced (.cons hx (.cons hz .nil))

/-- A tensor after it has met a bound. -/
def limited (op : BinaryOp) (bound : Option Float) (t : Tensor) : Tensor :=
  bound.elim t fun value =>
    ⟨t.dtype, t.dims,
      Tensor.store (t.doubles.map (op.apply t.dtype · (t.dtype.rounded value))) t.dtype⟩

theorem sig_limited (op : BinaryOp) (bound : Option Float) (t : Tensor) :
    (limited op bound t).dtype = t.dtype ∧ (limited op bound t).dims = t.dims := by
  cases bound <;> exact ⟨rfl, rfl⟩

theorem counted_limited (op : BinaryOp) (bound : Option Float) (hcounted : t.Counted) :
    (limited op bound t).Counted := by
  cases bound with
  | none => exact hcounted
  | some value => exact Tensor.counted_store ((Array.size_map ..).trans
      ((Tensor.size_doubles t).trans hcounted))

/-- Both bounds at once: the interpreter clamps unrounded numbers and stores them once. -/
theorem limited_limited (hdtype : t.dtype ∈ [DType.i8, .i32, .bool]) (ht : t.WellFormed)
    {low high : Option Float} (hlow : ∀ x, low = some x → t.dtype.Orders x)
    (hhigh : ∀ x, high = some x → t.dtype.Orders x) (hsome : low ≠ none ∨ high ≠ none) :
    limited .min high (limited .max low t) = ⟨t.dtype, t.dims, Tensor.store (t.doubles.map fun x =>
      high.elim (low.elim x (Number.larger x)) (Number.smaller (low.elim x (Number.larger x))))
        t.dtype⟩ := by
  have horders : ∀ a ∈ t.doubles, t.dtype.Orders a := fun a ha =>
    Tensor.orders_of_mem hdtype ht ha
  cases low with
  | none =>
    cases high with
    | none => exact absurd rfl (hsome.resolve_left fun h => h rfl)
    | some h =>
      have hh := hhigh h rfl
      refine congrArg (Tensor.mk _ _) (Kernel.store_map_congr hdtype fun a ha => ?_)
      exact DType.word_smaller_rounded hdtype (horders a ha) hh
  | some l =>
    have hl := hlow l rfl
    cases high with
    | none =>
      refine congrArg (Tensor.mk _ _) (Kernel.store_map_congr hdtype fun a ha => ?_)
      exact DType.word_larger_rounded hdtype (horders a ha) hl
    | some h =>
      have hh := hhigh h rfl
      refine congrArg (Tensor.mk _ _) ?_
      show Tensor.store ((Tensor.mk t.dtype t.dims (Tensor.store _ t.dtype)).doubles.map _) _ = _
      rw [Tensor.doubles_store, Array.map_map, Array.map_map]
      refine Kernel.store_map_congr hdtype fun a ha => ?_
      show t.dtype.word (Number.smaller (t.dtype.rounded (Number.larger a (t.dtype.rounded l)))
        (t.dtype.rounded h)) = t.dtype.word (Number.smaller (Number.larger a l) h)
      have hlarger : t.dtype.Orders (Number.larger a l) := DType.orders_larger (horders a ha) hl
      rw [DType.word_smaller_rounded hdtype (DType.orders_rounded hdtype _) hh,
        DType.word_smaller hdtype (DType.orders_rounded hdtype _) hh,
        DType.word_smaller hdtype hlarger hh, DType.word_rounded hdtype,
        DType.word_larger_rounded hdtype (horders a ha) hl]

variable (hreduced : engine.reducedPrecision = false)

include hreduced

/-- A number meets a tensor. -/
theorem yields_number {op : BinaryOp} (hx : known x t) (hdtype : d.dtype = t.dtype)
    (hcounted : t.Counted) (value : Float) :
    Yields engine (scalar value d >>= fun z => Emit.layer (.elementWise op) [x, z]) site s known
      (some ⟨t.dtype, Kernel.padded d.rank t.dims,
        Tensor.store (t.doubles.map (op.apply t.dtype · (t.dtype.rounded value))) t.dtype⟩) := by
  have hfull : Kernel.binary t (.full t.dtype (List.replicate d.rank 1) value) t.dtype
      (op.apply t.dtype) = .ok _ := Kernel.binary_full hcounted d.rank value
  refine .next (yields_scalar hreduced value) fun z s₁ => ?_
  rw [← Outcome.toOption_eq_some.mpr hfull, hdtype]
  exact yields_elementWise hreduced (Known.add_of hx) Known.add_self rfl

/-- The right-hand side of a node after it has been multiplied. -/
theorem yields_binary {op : BinaryOp} {v : Tensor} (hop : binaryOp? site.node.kind = some op)
    (h0 : s.Provides known site.node 0 t)
    (hright : ∀ d, t.Conforms d → Yields engine (rightOperand d) site s known (some u))
    (hdtype : u.dtype = t.dtype) (hcounted : u.Counted)
    (hv : v = if site.node.factor != 1.0 then
      ⟨u.dtype, Kernel.padded t.rank u.dims,
        Tensor.store (u.doubles.map (· * u.dtype.rounded site.node.factor)) u.dtype⟩ else u) :
    Yields engine binary site s known (Kernel.binary t v t.dtype (op.apply t.dtype)).toOption := by
  refine .after reads_node ?_
  rintro _ rfl
  refine .after reads_orFail fun op' hop' => ?_
  obtain rfl := Option.some.inj (hop.symm.trans hop')
  refine .after (reads_input h0) fun x ⟨hx, hd⟩ => ?_
  refine .after (reads_conforming hd) fun d hconforms => ?_
  refine .next (hright d hconforms) fun z s₁ => .after reads_describe fun e _ => ?_
  refine .guard (reads_fail (q := fun _ => True)) fun _ => ?_
  have hsame : d.dtype = u.dtype := hconforms.1.symm.trans hdtype.symm
  dsimp only
  split
  · next h =>
    have hv : v = _ := hv.trans (if_pos h)
    rw [← hconforms.rank_eq] at hv
    refine .next (yields_number hreduced Known.add_self hsame hcounted _) fun z' s₂ => ?_
    exact yields_elementWise hreduced (.inl (.inl hx)) (.inr ⟨rfl, hv⟩) (hv ▸ hdtype)
  · next h =>
    obtain rfl : v = u := hv.trans (if_neg h)
    exact .next (.done Known.add_self) fun z' s₂ =>
      yields_elementWise hreduced (.inl (.inl hx)) Known.add_self hdtype

omit hreduced in
theorem yields_right_tensor (hcount : site.node.inputs.length = 2)
    (h1 : s.Provides known site.node 1 u) :
    Yields engine (rightOperand d) site s known (some u) := by
  refine .after reads_node ?_
  rintro _ rfl
  rw [if_pos hcount]
  exact .read (reads_input h1) fun x hx => hx.1

theorem yields_right_number {number : Float} (hcount : site.node.inputs.length = 1)
    (hother : site.node.float? "other" = some number) :
    Yields engine (rightOperand d) site s known
      (some (.full d.dtype (List.replicate d.rank 1) number)) := by
  refine .after reads_node ?_
  rintro _ rfl
  rw [if_neg (by omega)]
  refine .after reads_orFail fun number' hnumber' => ?_
  obtain rfl := Option.some.inj (hother.symm.trans hnumber')
  exact yields_scalar hreduced number

theorem yields_unary {op : UnaryOp} (hop : unaryOp? site.node.kind = some op)
    (h0 : s.Provides known site.node 0 t) :
    Yields engine unary site s known
      (Kernel.map t (op.resultType t.dtype) op.apply).toOption := by
  refine .after reads_node ?_
  rintro _ rfl
  refine .after reads_orFail fun op' hop' => ?_
  obtain rfl := Option.some.inj (hop.symm.trans hop')
  exact .after (reads_input h0) fun x ⟨hx, _⟩ => .layer hreduced (.cons hx .nil)

theorem yields_limit {op : BinaryOp} (hx : known x t) (hconforms : t.Conforms d)
    (hcounted : t.Counted) (bound : Option Float) :
    Yields engine (limit op bound d x) site s known (some (limited op bound t)) := by
  cases bound with
  | none => exact .done hx
  | some value =>
    have hnumber : Yields engine (limit op (some value) d x) site s known _ :=
      yields_number hreduced hx hconforms.1.symm hcounted value
    have hdims : Kernel.padded d.rank t.dims = t.dims := by
      rw [hconforms.rank_eq, Tensor.rank, Kernel.padded_self]
    rwa [hdims] at hnumber

theorem yields_clamp (h0 : s.Provides known site.node 0 t) (hint : t.dtype.isFloat = false)
    (hcounted : t.Counted) :
    Yields engine clamp site s known (some (limited .min (site.node.float? "max")
      (limited .max (site.node.float? "min") t))) := by
  refine .after (reads_input h0) fun x ⟨hx, hd⟩ => ?_
  refine .after (reads_conforming hd) fun d hconforms => ?_
  refine .after reads_node ?_
  rintro _ rfl
  have hlimits : Yields engine (do
      limit .min (site.node.bound? "max").join d
        (← limit .max (site.node.bound? "min").join d x)) site s known
      (some (limited .min (site.node.float? "max") (limited .max (site.node.float? "min") t))) := by
    rw [Node.join_bound?, Node.join_bound?]
    obtain ⟨hdtype, hdims⟩ := sig_limited .max (site.node.float? "min") t
    refine .next (yields_limit hreduced hx hconforms hcounted _) fun z s₁ => ?_
    exact yields_limit hreduced Known.add_self ⟨hdtype.trans hconforms.1, hdims ▸ hconforms.2⟩
      (counted_limited .max _ hcounted) _
  split
  · next low high hlow hhigh =>
    rw [if_neg (by rw [← hconforms.1, hint]; exact Bool.false_ne_true)]
    rwa [hlow, hhigh] at hlimits
  · exact hlimits

end Converter

/-! ## Converted nodes -/

/-- A node of a binary kind has two operands or one and a number. -/
theorem Support.operands_of_binary {g : Graph} {node : Node} {ts : List Tensor}
    (h : binary g node = .ok ()) (hlength : node.inputs.length = ts.length) :
    (∃ t number, ts = [t] ∧ node.float? "other" = some number) ∨ ∃ t u, ts = [t, u] := by
  rcases operands_of_binaryOperands (and_eq_ok.mp h).1 with ⟨htensors, number, hother⟩ | htensors
  · obtain ⟨t, rfl⟩ := eq_singleton_of_tensors hlength htensors
    exact .inl ⟨t, number, rfl, hother⟩
  · obtain ⟨t, u, rfl⟩ := eq_pair_of_tensors hlength htensors
    exact .inr ⟨t, u, rfl⟩

/-- A node without bounds is not supported. -/
theorem Support.bound_of_clamp {g : Graph} {node : Node} (h : clamp g node = .ok ()) :
    node.float? "min" ≠ none ∨ node.float? "max" ≠ none := by
  obtain ⟨-, hsome⟩ := and_eq_ok.mp h
  rw [← Node.join_bound?, ← Node.join_bound?]
  split at hsome
  · cases hsome
  · next low high hne hlow hhigh =>
    rw [hlow, hhigh]
    cases low with
    | some low => exact .inl nofun
    | none =>
      cases high with
      | some high => exact .inr nofun
      | none => exact (hne rfl rfl).elim
  · cases hsome

namespace Kernel

variable {node : Node} {dtype : DType} {t u y : Tensor} {f g : Float → Float → Float}

/-- A right-hand side that is multiplied first gives what the words ask for. -/
theorem binary_scaled (hdtype : dtype ∈ [DType.i8, .i32, .bool]) (hcounted : u.Counted)
    (hu : u.dtype = dtype)
    (hwords : ∀ a ∈ t.doubles, ∀ b ∈ u.doubles,
      dtype.word (f a b) = dtype.word (g a (node.scaled dtype b)))
    (hrun : binary t u dtype f = .ok y) :
    binary t (if node.factor != 1.0 then
      ⟨u.dtype, padded t.rank u.dims,
        Tensor.store (u.doubles.map (· * u.dtype.rounded node.factor)) u.dtype⟩ else u) dtype g =
      .ok y := by
  have hscaled := binary_congr hdtype hwords hrun
  unfold Node.scaled at hscaled
  split
  · next h =>
    simp only [if_pos h] at hscaled
    rw [hu]
    exact binary_store hcounted hscaled
  · next h =>
    simpa only [if_neg h] using hscaled

end Kernel

namespace Registry

open Reference.Call Converter

variable {engine : Engine} {g : Graph} {truncateWide : Bool}
  {s s' : EmitState Reference.accelerator} {node : Node} {slots : Engine.Slots} {out : ValueId}
  {ts : List Tensor} {dtype : DType} {y : Tensor}

theorem converter_of_binaryOp? {kind : OpKind} {op : BinaryOp} (h : binaryOp? kind = some op) :
    standard Reference.accelerator kind = some (single Support.binary Converter.binary) := by
  cases kind <;> first | rfl | cases h

variable (hreduced : engine.reducedPrecision = false) (hfeeds : s.Feeds slots node.inputs ts)
  (hout : node.outputs = [out])
  (hconvert : (standard Reference.accelerator).convert g truncateWide s node = (.ok (), s'))
  (hsize : s'.size ≤ slots.size) (hdtype : dtype ∈ [DType.i8, .i32, .bool])
  (hts : ∀ t ∈ ts, t.dtype = dtype ∧ t.WellFormed)

include hreduced hfeeds hout hconvert hsize hdtype hts

/-- A node computes what its right-hand side gives. -/
theorem computes_of_right {op : BinaryOp} {f : Float → Float → Float} {t u : Tensor}
    (hop : binaryOp? node.kind = some op) (ht : ts.head? = some t)
    (hright : ∀ d, t.Conforms d →
      (rightOperand d).Yields engine ⟨g, node, truncateWide⟩ s (s.known slots) (some u))
    (hu : u.dtype = dtype) (hcounted : u.Counted) (hrun : Kernel.binary t u dtype f = .ok y)
    (hwords : ∀ a ∈ t.doubles, ∀ b ∈ u.doubles,
      dtype.word (f a b) = dtype.word (op.apply dtype a (node.scaled dtype b))) :
    s.Computes engine s' slots out y := by
  have hconverter := converter_of_binaryOp? hop
  obtain ⟨rfl, -⟩ := hts t (List.mem_of_mem_head? ht)
  have hscaled := Kernel.binary_scaled hdtype hcounted hu hwords hrun
  exact (computes_iff hconverter
    (yields_binary hreduced hop (hfeeds.provides (List.head?_eq_getElem? ▸ ht)) hright hu hcounted
      rfl) hconvert hout hsize).mpr (Outcome.toOption_eq_some.mpr hscaled)

/-- A node of a binary kind computes what the interpreter computes if an engine's numbers have the
same words as the interpreter's. -/
theorem computes_binary {op : BinaryOp} {f : Float → Float → Float}
    (hop : binaryOp? node.kind = some op) (hdeclared : node.operandDType? g 0 = some dtype)
    (hrun : (on node ts).binary f = .ok y)
    (hwords : ∀ t ∈ ts, ∀ a ∈ t.doubles, ∀ b x, node.Reads dtype ts b x →
      dtype.word (f a x) = dtype.word (op.apply dtype a (node.scaled dtype b))) :
    s.Computes engine s' slots out y := by
  have hconverter := converter_of_binaryOp? hop
  have hsupport := support_of_converter (support_of_convert hconvert) hconverter
  have hint : dtype.isFloat = false := by fin_cases hdtype <;> rfl
  have hwhole := (Support.whole_of_wholeNumbers
    ((Support.types_of_binary hsupport).2 dtype hdeclared) hint).2
  have hlength : node.inputs.length = ts.length := hfeeds.length_eq
  rcases Support.operands_of_binary hsupport hlength with ⟨t, number, rfl, hother⟩ | ⟨t, u, rfl⟩
  · obtain ⟨rfl, ht⟩ := hts t List.mem_cons_self
    have hone : node.inputs.length ≠ 2 := by simp [hlength]
    have hnumber : node.number? = some number := (if_neg hone).trans hother
    have hmap := kernel_of_number hother (fun _ => hwhole number hother) hrun
    have hfull : Kernel.binary t (.full t.dtype (List.replicate t.rank 1) number) t.dtype
        (fun a _ => f a number) = .ok y := by
      obtain ⟨-, rfl⟩ := Kernel.map_eq_ok.mp hmap
      rw [Kernel.binary_full ht.count, Tensor.rank, Kernel.padded_self]
    have htype : (Tensor.full t.dtype (List.replicate t.rank 1) number).dtype = t.dtype := rfl
    refine computes_of_right hreduced hfeeds hout hconvert hsize hdtype hts hop rfl
      (fun d hconforms => ?_) htype (Tensor.counted_store Array.size_replicate) hfull
      fun a ha b hb => ?_
    · rw [hconforms.1, ← hconforms.rank_eq]
      exact yields_right_number hreduced hlength hother
    · rw [Tensor.eq_of_mem_full hb]
      exact hwords t List.mem_cons_self a ha _ _ (.number hnumber)
  · obtain ⟨ht, -⟩ := hts t List.mem_cons_self
    obtain ⟨hu, hwell⟩ := hts u (List.mem_cons_of_mem t List.mem_cons_self)
    have hkernel : Kernel.binary t u dtype f = .ok y := by
      have hkernel : Kernel.binary t u (Kernel.promote t.dtype u.dtype) f = .ok y :=
        kernel_eq_ok.mp hrun
      rwa [ht, hu, Kernel.promote, if_pos rfl] at hkernel
    exact computes_of_right hreduced hfeeds hout hconvert hsize hdtype hts hop rfl
      (fun d _ => yields_right_tensor hlength (hfeeds.provides rfl)) hu hwell.count hkernel
      fun a ha b hb => hwords t List.mem_cons_self a ha b b (.element rfl hb)

omit hreduced hout hsize hdtype hts in
/-- The factor of a sum or difference is read from the node. -/
theorem eq_factor {alpha : Float} (hkind : node.kind = .add ∨ node.kind = .sub)
    (hrun : (on node ts).float "alpha" 1.0 = .ok alpha) : alpha = node.factor := by
  have hbinary : ∃ op, binaryOp? node.kind = some op := by
    rcases hkind with h | h <;> rw [h] <;> exact ⟨_, rfl⟩
  obtain ⟨op, hop⟩ := hbinary
  have hsupport := support_of_converter (support_of_convert hconvert) (converter_of_binaryOp? hop)
  have hcount : ts.length ≤ 2 := by
    rcases Support.operands_of_binary hsupport hfeeds.length_eq with ⟨t, -, rfl, -⟩ | ⟨t, u, rfl⟩
    · exact Nat.le_succ 1
    · exact le_rfl
  refine eq_of_float (attr?_of_tensors fun count hread => ?_) hrun
  have htwo : node.kind.tensorOperands? = some 2 := by
    rcases hkind with h | h <;> rw [h] <;> rfl
  obtain rfl := Option.some.inj (htwo.symm.trans hread)
  rwa [List.length_map]

/-- Sums, differences and products of exact numbers. -/
theorem computes_arithmetic (hkind : node.kind ∈ [OpKind.add, .sub, .mul])
    (hdeclared : node.operandDType? g 0 = some dtype) (hexact : node.Exact dtype ts)
    (hmul : node.kind = .mul → (node.factor == 1.0) = true)
    (hrun : (on node ts).tensorResult = .ok y) : s.Computes engine s' slots out y := by
  simp only [List.mem_cons, List.not_mem_nil, or_false] at hkind
  rcases hkind with h | h | h
  · simp only [tensorResult, on_node, h] at hrun
    obtain ⟨alpha, halpha, hrun⟩ := Outcome.bind_eq_ok.mp hrun
    obtain rfl := eq_factor hfeeds hconvert (.inl h) halpha
    refine computes_binary hreduced hfeeds hout hconvert hsize hdtype hts (by rw [h]; rfl) hdeclared
      hrun fun t ht a ha b x hreads => DType.word_eq_of_value ?_
    exact (Number.value_scaled_sum node.factor).trans
      (Number.value_add rfl (hexact.value_scaled hdtype hreads).symm)
  · simp only [tensorResult, on_node, h] at hrun
    obtain ⟨alpha, halpha, hrun⟩ := Outcome.bind_eq_ok.mp hrun
    obtain rfl := eq_factor hfeeds hconvert (.inr h) halpha
    refine computes_binary hreduced hfeeds hout hconvert hsize hdtype hts (by rw [h]; rfl) hdeclared
      hrun fun t ht a ha b x hreads => DType.word_eq_of_value ?_
    exact (Number.value_scaled_difference node.factor).trans
      (Number.value_sub rfl (hexact.value_scaled hdtype hreads).symm)
  · simp only [tensorResult, on_node, h] at hrun
    refine computes_binary hreduced hfeeds hout hconvert hsize hdtype hts (by rw [h]; rfl) hdeclared
      hrun fun t ht a ha b x hreads => DType.word_eq_of_value ?_
    rw [Node.scaled_of_one (hmul h)]
    exact Number.value_mul_right (hexact.value_eq hreads).symm

/-- The larger and the smaller of numbers. -/
theorem computes_order (hkind : node.kind = .maximum ∨ node.kind = .minimum)
    (hdeclared : node.operandDType? g 0 = some dtype)
    (hnumber : ∀ x, node.number? = some x → dtype.Orders x)
    (hfactor : (node.factor == 1.0) = true) (hrun : (on node ts).tensorResult = .ok y) :
    s.Computes engine s' slots out y := by
  have hleft : ∀ t ∈ ts, ∀ a ∈ t.doubles, dtype.Orders a := fun t ht a ha => by
    obtain ⟨rfl, hwell⟩ := hts t ht
    exact Tensor.orders_of_mem hdtype hwell ha
  rcases hkind with h | h
  · simp only [tensorResult, on_node, h] at hrun
    refine computes_binary hreduced hfeeds hout hconvert hsize hdtype hts (by rw [h]; rfl) hdeclared
      hrun fun t ht a ha b x hreads => ?_
    obtain ⟨hb, hx, hword⟩ := Node.orders_of_reads hdtype hts hnumber hreads
    show _ = dtype.word (Number.larger a (node.scaled dtype b))
    rw [Node.scaled_of_one hfactor, DType.word_larger hdtype (hleft t ht a ha) hx,
      DType.word_larger hdtype (hleft t ht a ha) hb, hword]
  · simp only [tensorResult, on_node, h] at hrun
    refine computes_binary hreduced hfeeds hout hconvert hsize hdtype hts (by rw [h]; rfl) hdeclared
      hrun fun t ht a ha b x hreads => ?_
    obtain ⟨hb, hx, hword⟩ := Node.orders_of_reads hdtype hts hnumber hreads
    show _ = dtype.word (Number.smaller a (node.scaled dtype b))
    rw [Node.scaled_of_one hfactor, DType.word_smaller hdtype (hleft t ht a ha) hx,
      DType.word_smaller hdtype (hleft t ht a ha) hb, hword]

omit hdtype hts in
/-- Signs are changed in one layer. -/
theorem computes_sign (hkind : node.kind = .neg ∨ node.kind = .abs)
    (hrun : (on node ts).tensorResult = .ok y) : s.Computes engine s' slots out y := by
  have hconverter : standard Reference.accelerator node.kind =
      some (single Support.unary Converter.unary) := by
    rcases hkind with h | h <;> rw [h] <;> rfl
  have hsupport := support_of_converter (support_of_convert hconvert) hconverter
  obtain ⟨t, rfl⟩ := Support.eq_singleton_of_tensors hfeeds.length_eq hsupport
  have hunary : ∃ op, unaryOp? node.kind = some op ∧
      Kernel.map t (op.resultType t.dtype) op.apply = .ok y := by
    rcases hkind with h | h
    · simp only [tensorResult, on_node, h] at hrun
      exact ⟨.neg, by rw [h]; rfl, kernel_eq_ok.mp hrun⟩
    · simp only [tensorResult, on_node, h] at hrun
      exact ⟨.abs, by rw [h]; rfl, kernel_eq_ok.mp hrun⟩
  obtain ⟨op, hop, hmap⟩ := hunary
  exact (computes_iff hconverter (yields_unary hreduced hop (hfeeds.provides rfl)) hconvert hout
    hsize).mpr (Outcome.toOption_eq_some.mpr hmap)

/-- Bounds bind one after the other. -/
theorem computes_clamp (hkind : node.kind = .clamp)
    (hbounds : ∀ name ∈ ["min", "max"], ∀ x, node.float? name = some x → dtype.Orders x)
    (hrun : (on node ts).tensorResult = .ok y) : s.Computes engine s' slots out y := by
  have hconverter : standard Reference.accelerator node.kind =
      some (single Support.clamp Converter.clamp) := by rw [hkind]; rfl
  have hsupport := support_of_converter (support_of_convert hconvert) hconverter
  obtain ⟨t, rfl⟩ :=
    Support.eq_singleton_of_tensors hfeeds.length_eq (Support.and_eq_ok.mp hsupport).1
  obtain ⟨rfl, hwell⟩ := hts t List.mem_cons_self
  have hint : t.dtype.isFloat = false := by
    generalize t.dtype = dtype at hdtype
    fin_cases hdtype <;> rfl
  simp only [tensorResult, on_node, hkind] at hrun
  obtain ⟨low, hlow, hrun⟩ := Outcome.bind_eq_ok.mp hrun
  obtain ⟨high, hhigh, hrun⟩ := Outcome.bind_eq_ok.mp hrun
  obtain rfl := eq_of_float? attr?_of_one_operand hlow
  obtain rfl := eq_of_float? attr?_of_one_operand hhigh
  obtain ⟨-, rfl⟩ := Kernel.map_eq_ok.mp (kernel_eq_ok.mp hrun)
  refine (computes_iff hconverter (yields_clamp hreduced (hfeeds.provides rfl) hint hwell.count)
    hconvert hout hsize).mpr (congrArg some ?_)
  exact limited_limited hdtype hwell (hbounds "min" (by simp)) (hbounds "max" (by simp))
    (Support.bound_of_clamp hsupport)

/-- Layers on integers compute what the interpreter computes if nothing of a node's numbers is lost
on an engine. -/
theorem computes_integers
    (hkind : node.kind ∈ [OpKind.add, .sub, .mul, .maximum, .minimum, .neg, .abs, .clamp])
    (hdeclared : node.operandDType? g 0 = some dtype) (hlossless : node.Lossless dtype ts)
    (hrun : Reference.interpret node (ts.map .tensor) = .ok [.tensor y]) :
    s.Computes engine s' slots out y := by
  have hresult : (on node ts).tensorResult = .ok y := by
    refine tensorResult_of_interpret (fun hother => ?_) hrun
    revert hkind hother
    cases node.kind <;> decide
  unfold Node.Lossless at hlossless
  simp only [List.mem_cons, List.not_mem_nil, or_false] at hkind
  rcases hkind with h | h | h | h | h | h | h | h <;> rw [h] at hlossless
  case inl | inr.inl =>
    exact computes_arithmetic hreduced hfeeds hout hconvert hsize hdtype hts (by simp [h]) hdeclared
      hlossless (by simp [h]) hresult
  case inr.inr.inl =>
    exact computes_arithmetic hreduced hfeeds hout hconvert hsize hdtype hts (by simp [h]) hdeclared
      hlossless.1 (fun _ => hlossless.2) hresult
  case inr.inr.inr.inl | inr.inr.inr.inr.inl =>
    exact computes_order hreduced hfeeds hout hconvert hsize hdtype hts (by simp [h]) hdeclared
      hlossless.1 hlossless.2 hresult
  case inr.inr.inr.inr.inr.inl | inr.inr.inr.inr.inr.inr.inl =>
    exact computes_sign hreduced hfeeds hout hconvert hsize (by simp [h]) hresult
  case inr.inr.inr.inr.inr.inr.inr =>
    exact computes_clamp hreduced hfeeds hout hconvert hsize hdtype hts h hlossless hresult

end Registry

end HybridGraph
