import HybridGraph.Proofs.Conversion.Executing
import HybridGraph.Proofs.Conversion.Predicates
import HybridGraph.Proofs.Number.Arithmetic
/-!
# Nodes of one layer

Activations, pointwise functions, products, softmax, conversions of type and copies each become one
layer.  A node and its layer read their attributes in different ways: the interpreter has defaults,
scales and a requested result type, and the layer has what the converter made of the attributes that
the predicate lets through.  On floating operands both are one call of one kernel.

`Emit.Emits m site s known ts result` says that `m`, whenever it succeeds, has added one layer that
reads known tensors and computes `result` from `ts`.  It follows the shape of a converter, and what
it finds of a converter is what a converted node runs as:

    Reference.interpret node (ts.map .tensor) = .ok outs →
      ∃ y out layer, outs = [.tensor y] ∧ node.outputs = [out] ∧
        s.RunsOne s' slots ts out layer y                                      (runs_single_layer)
-/

namespace HybridGraph

open Reference.Call

/-! ## One layer -/

namespace Emit

variable {α : Type} {site : EmitSite} {s s' : EmitState Reference.accelerator} {known : Known}
  {ts : List Tensor} {result : Except KernelError Tensor} {q : α → Prop}

/-- Whenever it succeeds, a computation has added one layer that reads known tensors, and answers
its result. -/
def Emits (m : Emit Reference.accelerator TensorRef) (site : EmitSite)
    (s : EmitState Reference.accelerator) (known : Known) (ts : List Tensor)
    (result : Except KernelError Tensor) : Prop :=
  ∀ x s', m.eval site s = (.ok x, s') → ∃ (kind : LayerKind) (inputs : List TensorRef),
    List.Forall₂ known inputs ts ∧ kind.run ts = result ∧
      (layer kind inputs).eval site s = (.ok x, s')

namespace Emits

theorem layer {kind : LayerKind} {inputs : List TensorRef} (h : List.Forall₂ known inputs ts) :
    Emits (Emit.layer kind inputs) site s known ts (kind.run ts) := fun _ _ hrun =>
  ⟨kind, inputs, h, rfl, hrun⟩

/-- A step that only reads, and then a layer. -/
theorem after {r : Emit Reference.accelerator α} {f : α → Emit Reference.accelerator TensorRef}
    (hr : r.Reads site s q) (hf : ∀ a, q a → Emits (f a) site s known ts result) :
    Emits (r >>= f) site s known ts result := by
  intro x s' hrun
  obtain ⟨a, next, hread, hrest⟩ := eval_bind_eq_ok.mp hrun
  obtain ⟨rfl, ha⟩ := hr a next hread
  exact hf a ha x s' hrest

/-- A check that only some nodes need, and then a layer. -/
theorem guard {c p : Prop} [Decidable c] {check : Emit Reference.accelerator PUnit}
    {rest : PUnit → Emit Reference.accelerator TensorRef} (hcheck : check.Reads site s fun _ => p)
    (hrest : Emits (rest ⟨⟩) site s known ts result) :
    Emits (if c then check >>= rest else rest ⟨⟩) site s known ts result := by
  split
  · exact after hcheck fun _ _ => hrest
  · exact hrest

end Emits

theorem reads_float {name : String} :
    (float name : Emit Reference.accelerator Float).Reads site s
      (site.node.float? name = some ·) := by
  intro value s' hrun
  obtain ⟨_, _, hnode, hrun⟩ := eval_bind_eq_ok.mp hrun
  cases hnode
  exact reads_orFail value s' hrun

end Emit

/-! ## The layers of converters -/

namespace Converter

open Emit

variable {site : EmitSite} {s : EmitState Reference.accelerator} {known : Known} {t u : Tensor}

theorem reads_needMatrix {x : TensorRef} :
    (needMatrix x : Emit Reference.accelerator Unit).Reads site s fun _ => True := by
  intro a s' hrun
  obtain ⟨d, _, hdescribe, hrun⟩ := eval_bind_eq_ok.mp hrun
  obtain ⟨rfl, -⟩ := reads_describe d _ hdescribe
  obtain ⟨_, _, hfloat, hrun⟩ := eval_bind_eq_ok.mp hrun
  obtain ⟨rfl, -⟩ := reads_needFloat _ _ hfloat
  split at hrun
  · cases hrun
  · exact ⟨(eval_pure_eq_ok.mp hrun).2, trivial⟩

variable (h0 : s.Provides known site.node 0 t)

include h0

theorem emits_activation (function : Activation) :
    Emits (activation function) site s known [t] (Kernel.map t t.dtype function.apply) :=
  .after (reads_input h0) fun _ hx => .after reads_describe fun _ _ =>
    .after reads_needFloat fun _ _ => .layer (.cons hx.1 .nil)

theorem emits_hardtanh {low high : Float} (hlow : site.node.float? "min_val" = some low)
    (hhigh : site.node.float? "max_val" = some high) :
    Emits hardtanh site s known [t] (Kernel.map t t.dtype (Kernel.clip low high)) := by
  refine .after reads_float fun low' hlow' => .after reads_float fun high' hhigh' => ?_
  obtain rfl := Option.some.inj (hlow.symm.trans hlow')
  obtain rfl := Option.some.inj (hhigh.symm.trans hhigh')
  exact emits_activation h0 _

theorem emits_leakyRelu {slope : Float} (hslope : site.node.float? "negative_slope" = some slope) :
    Emits leakyRelu site s known [t] (Kernel.map t t.dtype (Kernel.leakyRelu · slope)) := by
  refine .after reads_float fun slope' hslope' => ?_
  obtain rfl := Option.some.inj (hslope.symm.trans hslope')
  exact emits_activation h0 _

theorem emits_elu {alpha : Float} (halpha : site.node.float? "alpha" = some alpha) :
    Emits elu site s known [t] (Kernel.map t t.dtype (Kernel.elu · alpha 1.0 1.0)) := by
  refine .after reads_float fun alpha' halpha' => ?_
  obtain rfl := Option.some.inj (halpha.symm.trans halpha')
  exact emits_activation h0 _

theorem emits_unary {op : UnaryOp} (hop : unaryOp? site.node.kind = some op) :
    Emits unary site s known [t] (Kernel.map t (op.resultType t.dtype) op.apply) := by
  refine .after reads_node ?_
  rintro _ rfl
  refine .after reads_orFail fun op' hop' => ?_
  obtain rfl := Option.some.inj (hop.symm.trans hop')
  exact .after (reads_input h0) fun x ⟨hx, _⟩ => .layer (.cons hx .nil)

theorem emits_prelu (h1 : s.Provides known site.node 1 u) :
    Emits prelu site s known [t, u] (Kernel.prelu t u) :=
  .after (reads_input h0) fun _ hx => .after (reads_input h1) fun _ hy =>
    .after reads_describe fun _ _ => .after reads_needFloat fun _ _ =>
      .after reads_describe fun _ _ => .guard (p := False) reads_fail
        (.layer (.cons hx.1 (.cons hy.1 .nil)))

theorem emits_matmul (h1 : s.Provides known site.node 1 u) :
    Emits matmul site s known [t, u] (Kernel.matmul t u) :=
  .after (reads_input h0) fun _ hx => .after (reads_input h1) fun _ hy =>
    .after reads_needMatrix fun _ _ => .after reads_needMatrix fun _ _ =>
      .layer (.cons hx.1 (.cons hy.1 .nil))

theorem emits_softmax {n : Int} {axis : Nat} (hn : site.node.int? "dim" = some n)
    (haxis : Kernel.axisIndex n t.rank = .ok axis) :
    Emits softmax site s known [t] (Kernel.softmax t axis t.dtype) := by
  refine .after (reads_input h0) fun x ⟨hx, hd⟩ => ?_
  refine .after (reads_conforming hd) fun d hconforms => .after reads_needFloat fun _ _ => ?_
  refine .after reads_node ?_
  rintro _ rfl
  refine .after reads_orFail fun n' hn' => ?_
  obtain rfl := Option.some.inj (hn.symm.trans hn')
  rw [hconforms.rank_eq]
  refine .after reads_axis fun axis' haxis' => ?_
  obtain rfl := Except.ok.inj (haxis.symm.trans haxis')
  exact .layer (.cons hx .nil)

theorem emits_cast :
    Emits cast site s known [t] (.ok (t.cast ((site.node.dtype? "dtype").getD t.dtype))) := by
  refine .after (reads_input h0) fun x ⟨hx, hd⟩ => .after reads_node ?_
  rintro _ rfl
  split
  · next dtype hdtype =>
    rw [hdtype]
    exact .layer (.cons hx .nil)
  · next hdtype =>
    refine .after (reads_conforming hd) fun d hconforms => ?_
    rw [hdtype, Option.getD_none, hconforms.1]
    exact .layer (.cons hx .nil)

theorem emits_copy : Emits copy site s known [t] (.ok t) := by
  refine .after (reads_input h0) fun x ⟨hx, hd⟩ => ?_
  refine .after (reads_conforming hd) fun d hconforms => ?_
  have hrun : (LayerKind.identity d.dtype).run [t] = .ok t := by
    show Except.ok (t.cast d.dtype) = _
    rw [Tensor.cast, if_pos hconforms.1.symm]
  exact hrun ▸ .layer (.cons hx .nil)

end Converter

/-! ## What predicates leave to the layers -/

namespace Support

variable {g : Graph} {node : Node}

theorem exists_bounds (h : Support.hardtanh g node = .ok ()) :
    ∃ low high, node.float? "min_val" = some low ∧ node.float? "max_val" = some high := by
  obtain ⟨-, h⟩ := and_eq_ok.mp h
  obtain ⟨hlow, hhigh⟩ := and_eq_ok.mp h
  obtain ⟨low, hlow⟩ := exists_float_of_number hlow
  obtain ⟨high, hhigh⟩ := exists_float_of_number hhigh
  exact ⟨low, high, hlow, hhigh⟩

theorem exists_slope (h : Support.leakyRelu g node = .ok ()) :
    ∃ slope, node.float? "negative_slope" = some slope :=
  exists_float_of_number (and_eq_ok.mp h).2

/-- A scale that is present is one. -/
theorem scales_of_elu (h : Support.elu g node = .ok ()) :
    (∃ alpha, node.float? "alpha" = some alpha) ∧ (node.float? "scale").getD 1.0 = 1.0 ∧
      (node.float? "input_scale").getD 1.0 = 1.0 := by
  obtain ⟨-, h⟩ := and_eq_ok.mp h
  obtain ⟨halpha, h⟩ := and_eq_ok.mp h
  have hone : ∀ found : Option Float, found.all (· == 1.0) = true → found.getD 1.0 = 1.0 := by
    rintro (_ | x) hx
    · rfl
    · exact Number.eq_one_of_beq hx
  have hscales := Bool.and_eq_true_iff.mp (require_eq_ok.mp h)
  exact ⟨exists_float_of_number halpha, hone _ hscales.1, hone _ hscales.2⟩

end Support

/-! ## Layers of nodes that are interpreted -/

/-- Floating operands keep their type. -/
theorem Reference.Call.map_of_pointwise {node : Node} {t y : Tensor} {ts : List Tensor}
    {f : Float → Float} (hfloat : t.dtype.isFloat = true)
    (h : (on node (t :: ts)).pointwise f = .ok y) : Kernel.map t t.dtype f = .ok y := by
  have h : Kernel.map t (Kernel.floatResult t.dtype) f = .ok y := kernel_eq_ok.mp h
  rwa [Kernel.floatResult, if_pos hfloat] at h

namespace Support

open Converter

variable {g : Graph} {truncateWide : Bool} {node : Node} {s : EmitState Reference.accelerator}
  {known : Known} {ts : List Tensor} {y : Tensor}
  (hlength : node.inputs.length = ts.length)
  (hprovides : ∀ operand t, ts[operand]? = some t → s.Provides known node operand t)
  (hrun : (on node ts).tensorResult = .ok y)

include hlength hprovides hrun

theorem emits_of_prelu (hkind : node.kind = .prelu) (h : floatBinary g node = .ok ()) :
    Converter.prelu.Emits ⟨g, node, truncateWide⟩ s known ts (.ok y) := by
  obtain ⟨t, u, rfl⟩ := eq_pair_of_tensors hlength (and_eq_ok.mp h).1
  simp only [tensorResult, on_node, hkind] at hrun
  have hkernel : Kernel.prelu t u = .ok y := kernel_eq_ok.mp hrun
  exact hkernel ▸ emits_prelu (hprovides 0 t rfl) (hprovides 1 u rfl)

theorem emits_of_matmul (hkind : node.kind = .matmul) (h : Support.matmul g node = .ok ()) :
    Converter.matmul.Emits ⟨g, node, truncateWide⟩ s known ts (.ok y) := by
  obtain ⟨t, u, rfl⟩ := eq_pair_of_tensors hlength (and_eq_ok.mp (and_eq_ok.mp h).1).1
  simp only [tensorResult, on_node, hkind] at hrun
  have hkernel : Kernel.matmul t u = .ok y := kernel_eq_ok.mp hrun
  exact hkernel ▸ emits_matmul (hprovides 0 t rfl) (hprovides 1 u rfl)

theorem emits_of_relu (hkind : node.kind = .relu) (h : floatUnary g node = .ok ()) :
    (activation .relu).Emits ⟨g, node, truncateWide⟩ s known ts (.ok y) := by
  obtain ⟨t, rfl⟩ := eq_singleton_of_tensors hlength (and_eq_ok.mp h).1
  simp only [tensorResult, on_node, hkind] at hrun
  have hkernel : Kernel.map t t.dtype Kernel.relu = .ok y := kernel_eq_ok.mp hrun
  exact hkernel ▸ emits_activation (hprovides 0 t rfl) .relu

/-- A function of every element, as a unary layer. -/
theorem emits_of_unary (hkind : node.kind ∈ [OpKind.exp, .log, .sqrt, .erf])
    (h : floatUnary g node = .ok ()) :
    Converter.unary.Emits ⟨g, node, truncateWide⟩ s known ts (.ok y) := by
  obtain ⟨t, rfl⟩ := eq_singleton_of_tensors hlength (and_eq_ok.mp h).1
  obtain ⟨op, hop, hkernel⟩ : ∃ op, unaryOp? node.kind = some op ∧
      Kernel.map t (op.resultType t.dtype) op.apply = .ok y := by
    simp only [List.mem_cons, List.not_mem_nil, or_false] at hkind
    rcases hkind with hkind | hkind | hkind | hkind <;>
      simp only [tensorResult, on_node, hkind] at hrun ⊢
    · exact ⟨.exp, rfl, kernel_eq_ok.mp hrun⟩
    · exact ⟨.log, rfl, kernel_eq_ok.mp hrun⟩
    · exact ⟨.sqrt, rfl, kernel_eq_ok.mp hrun⟩
    · exact ⟨.erf, rfl, kernel_eq_ok.mp hrun⟩
  exact hkernel ▸ emits_unary (hprovides 0 t rfl) hop

theorem emits_of_to (hkind : node.kind = .to) (h : Support.cast g node = .ok ()) :
    Converter.cast.Emits ⟨g, node, truncateWide⟩ s known ts (.ok y) := by
  obtain ⟨t, rfl⟩ := eq_singleton_of_tensors hlength (and_eq_ok.mp h).1
  exact eq_cast_of_to (attr?_of_cast h) hkind hrun ▸ emits_cast (hprovides 0 t rfl)

omit hrun in
/-- A copy. -/
theorem emits_of_tensor (h : tensors g node 1 = .ok ()) (hrun : (on node ts).tensor 0 = .ok y) :
    Converter.copy.Emits ⟨g, node, truncateWide⟩ s known ts (.ok y) := by
  obtain ⟨t, rfl⟩ := eq_singleton_of_tensors hlength h
  obtain rfl : t = y := Except.ok.inj hrun
  exact emits_copy (hprovides 0 t rfl)

variable (hfloats : ∀ t ∈ ts, t.dtype.isFloat = true)

include hfloats

omit hrun in
/-- A function of every element, as an activation. -/
theorem emits_of_activation (function : Activation) (h : floatUnary g node = .ok ())
    (hrun : (on node ts).pointwise function.apply = .ok y) :
    (activation function).Emits ⟨g, node, truncateWide⟩ s known ts (.ok y) := by
  obtain ⟨t, rfl⟩ := eq_singleton_of_tensors hlength (and_eq_ok.mp h).1
  rw [← map_of_pointwise (hfloats t List.mem_cons_self) hrun]
  exact emits_activation (hprovides 0 t rfl) function

theorem emits_of_hardtanh (hkind : node.kind = .hardtanh) (h : Support.hardtanh g node = .ok ()) :
    Converter.hardtanh.Emits ⟨g, node, truncateWide⟩ s known ts (.ok y) := by
  obtain ⟨t, rfl⟩ := eq_singleton_of_tensors hlength (and_eq_ok.mp (and_eq_ok.mp h).1).1
  obtain ⟨low, high, hlow, hhigh⟩ := exists_bounds h
  simp only [tensorResult, on_node, hkind] at hrun
  rw [Outcome.bind_of_eq_ok (float_of_node hlow), Outcome.bind_of_eq_ok (float_of_node hhigh)]
    at hrun
  rw [← map_of_pointwise (hfloats t List.mem_cons_self) hrun]
  exact emits_hardtanh (hprovides 0 t rfl) hlow hhigh

theorem emits_of_leakyRelu (hkind : node.kind = .leakyRelu)
    (h : Support.leakyRelu g node = .ok ()) :
    Converter.leakyRelu.Emits ⟨g, node, truncateWide⟩ s known ts (.ok y) := by
  obtain ⟨t, rfl⟩ := eq_singleton_of_tensors hlength (and_eq_ok.mp (and_eq_ok.mp h).1).1
  obtain ⟨slope, hslope⟩ := exists_slope h
  simp only [tensorResult, on_node, hkind] at hrun
  rw [Outcome.bind_of_eq_ok (float_of_node hslope)] at hrun
  rw [← map_of_pointwise (hfloats t List.mem_cons_self) hrun]
  exact emits_leakyRelu (hprovides 0 t rfl) hslope

/-- Scales that are let through are one, so the layer does without them. -/
theorem emits_of_elu (hkind : node.kind = .elu) (h : Support.elu g node = .ok ()) :
    Converter.elu.Emits ⟨g, node, truncateWide⟩ s known ts (.ok y) := by
  obtain ⟨t, rfl⟩ := eq_singleton_of_tensors hlength (and_eq_ok.mp (and_eq_ok.mp h).1).1
  obtain ⟨⟨alpha, halpha⟩, hone, hinputOne⟩ := scales_of_elu h
  simp only [tensorResult, on_node, hkind] at hrun
  rw [Outcome.bind_of_eq_ok (float_of_node halpha)] at hrun
  obtain ⟨scale, hscale, hrun⟩ := Outcome.bind_eq_ok.mp hrun
  obtain ⟨inputScale, hinputScale, hrun⟩ := Outcome.bind_eq_ok.mp hrun
  obtain rfl : scale = 1.0 := (eq_of_float attr?_of_one_operand hscale).trans hone
  obtain rfl : inputScale = 1.0 := (eq_of_float attr?_of_one_operand hinputScale).trans hinputOne
  rw [← map_of_pointwise (hfloats t List.mem_cons_self) hrun]
  exact emits_elu (hprovides 0 t rfl) halpha

/-- A result type that is let through is the type of the operand. -/
theorem emits_of_softmax (hkind : node.kind = .softmax) (h : Support.softmax g node = .ok ())
    (htruth : ∀ t, ts[0]? = some t → ∀ declared, node.operandDType? g 0 = some declared →
      declared = t.dtype) :
    Converter.softmax.Emits ⟨g, node, truncateWide⟩ s known ts (.ok y) := by
  obtain ⟨hunary, hrest⟩ := and_eq_ok.mp h
  obtain ⟨t, rfl⟩ := eq_singleton_of_tensors hlength (and_eq_ok.mp hunary).1
  have hrequests := requests_of_truthful (and_eq_ok.mp hrest).2 (htruth t rfl)
  simp only [tensorResult, on_node, hkind] at hrun
  obtain ⟨n, axis, hn, haxis, hkernel⟩ :=
    exists_of_softmax (hfloats t List.mem_cons_self) hrequests hrun
  exact hkernel ▸ emits_softmax (hprovides 0 t rfl) hn haxis

end Support

/-! ## Converted nodes -/

namespace EmitState

/-- One state has one layer beyond another.  It reads tensors that the slots hold, computes a tensor
of them, and its result stands for a value. -/
structure RunsOne (s s' : EmitState Reference.accelerator) (slots : Engine.Slots)
    (ts : List Tensor) (out : ValueId) (layer : Layer) (y : Tensor) : Prop where
  layers : s'.layers = s.layers ++ [layer]
  reads : List.Forall₂ (s.known slots) layer.inputs ts
  computes : layer.kind.run ts = .ok y
  bound : s'.tensor? out = some layer.output
  fits : layer.output.index < s'.size

/-- An engine that does not round leaves the tensor for the value. -/
theorem RunsOne.computes_engine {s s' : EmitState Reference.accelerator} {slots : Engine.Slots}
    {ts : List Tensor} {out : ValueId} {layer : Layer} {y : Tensor} {engine : Engine}
    (h : s.RunsOne s' slots ts out layer y) (hreduced : engine.reducedPrecision = false)
    (hsize : s'.size ≤ slots.size) : s.Computes engine s' slots out y := by
  refine ⟨layer.output, h.bound, ?_⟩
  rw [h.layers, List.drop_left, Engine.result?_singleton hreduced (h.fits.trans_le hsize)
    (h.reads.imp fun _ _ hx => hx.2), h.computes]
  rfl

end EmitState

namespace Registry

open Support

variable {g : Graph} {truncateWide : Bool} {s s' : EmitState Reference.accelerator} {node : Node}
  {slots : Engine.Slots} {ts : List Tensor} {y : Tensor} {support : Graph → Node → Support}
  {m : Emit Reference.accelerator TensorRef}

/-- A converted node runs as the layer that its converter emits. -/
theorem runsOne_of_emits (hconverter : standard Reference.accelerator node.kind =
      some (single support m))
    (hemits : m.Emits ⟨g, node, truncateWide⟩ s (s.known slots) ts (.ok y))
    (hconvert : (standard Reference.accelerator).convert g truncateWide s node = (.ok (), s')) :
    ∃ out layer, node.outputs = [out] ∧ s.RunsOne s' slots ts out layer y := by
  rw [convert_of_support (support_of_convert hconvert) hconverter] at hconvert
  obtain ⟨tensors, s₁, hsingle, hbind⟩ := Emit.eval_bind_eq_ok.mp hconvert
  obtain ⟨x, s₂, hrun, hpure⟩ := Emit.eval_bind_eq_ok.mp hsingle
  obtain ⟨rfl, rfl⟩ := Emit.eval_pure_eq_ok.mp hpure
  obtain ⟨hcount, rfl⟩ := Emit.eval_bindOutputs_eq_ok hbind
  obtain ⟨out, hout⟩ := List.length_eq_one_iff.mp hcount.symm
  obtain ⟨kind, inputs, hinputs, hresult, hlayer⟩ := hemits x s₂ hrun
  obtain ⟨rfl, hsize, hadds⟩ := Emit.adds_of_layer hlayer
  refine ⟨out, _, hout, hadds.layers, hinputs, hresult, ?_, hsize ▸ Nat.lt_succ_self s.size⟩
  rw [hout]
  simp [EmitState.tensor?]

/-- A node of one layer that is interpreted on floating operands of the declared types runs as a
layer that computes the same tensor. -/
theorem runs_single_layer
    (hkind : node.kind ∈ [OpKind.relu, .sigmoid, .tanh, .hardtanh, .leakyRelu, .elu, .prelu, .exp,
      .log, .sqrt, .erf, .matmul, .softmax, .to, .dropout, .contiguous])
    (hfeeds : s.Feeds slots node.inputs ts) (hfloats : ∀ t ∈ ts, t.dtype.isFloat = true)
    (htruth : ∀ (operand : Nat) t, ts[operand]? = some t →
      ∀ declared, node.operandDType? g operand = some declared → declared = t.dtype)
    (hconvert : (standard Reference.accelerator).convert g truncateWide s node = (.ok (), s'))
    {outs : List Datum} (hrun : Reference.interpret node (ts.map .tensor) = .ok outs) :
    ∃ y out layer, outs = [.tensor y] ∧ node.outputs = [out] ∧
      s.RunsOne s' slots ts out layer y ∧
      ∀ engine : Engine, engine.reducedPrecision = false → s'.size ≤ slots.size →
        s.Computes engine s' slots out y := by
  have hlength : node.inputs.length = ts.length := hfeeds.length_eq
  have hprovides : ∀ operand t, ts[operand]? = some t →
      s.Provides (s.known slots) node operand t := fun _ _ ht => hfeeds.provides ht
  obtain ⟨y, hresult, rfl⟩ : ∃ y, (on node ts).tensorResult = .ok y ∧ outs = [.tensor y] := by
    have hother : node.kind ≠ .constant ∧ node.kind ≠ .size ∧ node.kind ≠ .print := by
      revert hkind
      cases node.kind <;> decide
    have hresults : (on node ts).results = .ok outs := hrun
    exact (results_eq_ok hother.1 hother.2.1 hother.2.2).mp hresults
  have hruns : ∀ {kind : OpKind} {support : Graph → Node → Support}
      {m : Emit Reference.accelerator TensorRef}, node.kind = kind →
      standard Reference.accelerator kind = some (single support m) →
      (support g node = .ok () → m.Emits ⟨g, node, truncateWide⟩ s (s.known slots) ts (.ok y)) →
      ∃ out layer, node.outputs = [out] ∧ s.RunsOne s' slots ts out layer y := by
    rintro kind support m rfl hconverter hemits
    exact runsOne_of_emits hconverter
      (hemits (support_of_converter (support_of_convert hconvert) hconverter)) hconvert
  have hone : ∃ out layer, node.outputs = [out] ∧ s.RunsOne s' slots ts out layer y := by
    simp only [List.mem_cons, List.not_mem_nil, or_false] at hkind
    rcases hkind with h | h | h | h | h | h | h | h | h | h | h | h | h | h | h | h
    · exact hruns h rfl (emits_of_relu hlength hprovides hresult h)
    · simp only [tensorResult, on_node, h] at hresult
      exact hruns h rfl fun hs => emits_of_activation hlength hprovides hfloats .sigmoid hs hresult
    · simp only [tensorResult, on_node, h] at hresult
      exact hruns h rfl fun hs => emits_of_activation hlength hprovides hfloats .tanh hs hresult
    · exact hruns h rfl (emits_of_hardtanh hlength hprovides hresult hfloats h)
    · exact hruns h rfl (emits_of_leakyRelu hlength hprovides hresult hfloats h)
    · exact hruns h rfl (emits_of_elu hlength hprovides hresult hfloats h)
    · exact hruns h rfl (emits_of_prelu hlength hprovides hresult h)
    iterate 4
      · exact hruns rfl (by rw [h]; rfl)
          (emits_of_unary hlength hprovides hresult (by simp [h]))
    · exact hruns h rfl (emits_of_matmul hlength hprovides hresult h)
    · exact hruns h rfl fun hs =>
        emits_of_softmax hlength hprovides hresult hfloats h hs (htruth 0)
    · exact hruns h rfl (emits_of_to hlength hprovides hresult h)
    · simp only [tensorResult, on_node, h] at hresult
      split at hresult
      · cases hresult
      · exact hruns h rfl fun hs =>
          emits_of_tensor hlength hprovides (Support.and_eq_ok.mp hs).1 hresult
    · simp only [tensorResult, on_node, h] at hresult
      exact hruns h rfl fun hs => emits_of_tensor hlength hprovides hs hresult
  obtain ⟨out, layer, hout, hone⟩ := hone
  exact ⟨y, out, layer, rfl, hout, hone, fun _ => hone.computes_engine⟩

/-- Two rows, with both scales written as one. -/
theorem runs_single_layer_elu :
    let node : Node := ⟨⟨0⟩, .elu, [⟨0⟩], [⟨1⟩],
      ((AttrList.empty.insert "alpha" (.float 0.5)).insert "scale" (.int 1)).insert "input_scale"
        (.float 1.0), none⟩
    let g : Graph := ⟨"rows", #[⟨.tensor (.of .f32 [2, 2]), none⟩, ⟨.tensor .unknown, none⟩],
      [node], [⟨0⟩], [⟨1⟩], 1⟩
    let s : EmitState Reference.accelerator :=
      ⟨({ tensors := #[⟨.f32, [.dynamic, .fixed 2]⟩] } : Network), [(⟨0⟩, ⟨0⟩)], []⟩
    let x : Tensor := ⟨.f32, [2, 2], .f32 #[1, -2, 3, -4]⟩
    let slots : Engine.Slots := #[some x, none]
    ∃ s' y out layer, (standard Reference.accelerator).convert g false s node = (.ok (), s') ∧
      Reference.interpret node [.tensor x] = .ok [.tensor y] ∧ node.outputs = [out] ∧
      s.RunsOne s' slots [x] out layer y := by
  intro node g s x slots
  have hrun : Reference.interpret node [.tensor x] = .ok [.tensor ⟨.f32, [2, 2],
      Tensor.store (x.doubles.map (Kernel.elu · 0.5 (Number.ofInt 1) 1.0)) .f32⟩] :=
    results_of_tensorResult (kernel_eq_ok.mpr (Kernel.map_eq_ok.mpr ⟨rfl, rfl⟩))
  have hconvert : (standard Reference.accelerator).convert g false s node = (.ok (), _) := rfl
  have hfeeds : s.Feeds slots node.inputs [x] :=
    .cons ⟨⟨0⟩, _, rfl, rfl, ⟨rfl, .cons trivial (.cons rfl .nil)⟩, rfl⟩ .nil
  have htruth : ∀ (operand : Nat) t, [x][operand]? = some t →
      ∀ declared, node.operandDType? g operand = some declared → declared = t.dtype := by
    rintro (_ | _) t ht declared hdeclared
    · cases ht
      cases hdeclared
      rfl
    · cases ht
  obtain ⟨y, out, layer, hy, hout, hone, -⟩ :=
    runs_single_layer (by decide) hfeeds (by decide) htruth hconvert hrun
  obtain rfl := Datum.tensor.inj (List.cons.inj hy).1
  exact ⟨_, _, out, layer, hconvert, hrun, hout, hone⟩

end Registry

end HybridGraph
