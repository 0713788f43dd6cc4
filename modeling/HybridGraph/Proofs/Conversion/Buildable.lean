import HybridGraph.Proofs.Conversion.Answering
import HybridGraph.Proofs.Conversion.Blame
import HybridGraph.Proofs.Conversion.Predicates
import HybridGraph.Proofs.Execute.Solution
/-!
# What is supported and runs can be converted

A predicate looks at a node and at declared types, a converter adds layers that the network refuses
unless they can be inferred, and the interpreter runs the node on tensors.  If the types say exactly
what the interpreter computes, a supported node that it runs is converted, and its result stands for
a network tensor with the descriptor of what was computed:

    r.support g node = .ok () → bound.Solves Reference.interpret node → g.TypesExact bound →
      … → ∃ s', r.convert g truncateWide s node = (.ok (), s') ∧ …              (exists_convert)

Some of what the layers need is in no predicate: `Node.FitsLayers` names it.  A product of a single
and a half, for one, is supported and runs, but has no layer.
-/

namespace HybridGraph

open Reference

/-! ## Gaps -/

/-- What the layers of a node need and its predicate leaves open. -/
structure Node.FitsLayers (node : Node) (ts : List Tensor) : Prop where
  /-- Weights of 64 bits would have to be narrowed. -/
  weight : node.kind = .constant →
    ∀ t, (node.attr? "value").bind Attr.tensor? = some t → t.dtype.isWide = false
  /-- There is no power of integers. -/
  power : node.kind = .pow → ∀ t ∈ ts, t.dtype.isFloat = true
  /-- A slope has one axis at most. -/
  slope : node.kind = .prelu → ∀ t, ts[1]? = some t → t.rank ≤ 1
  /-- Products and biases do not promote. -/
  factors : node.kind = .matmul ∨ node.kind = .linear → ∀ t ∈ ts, ∀ u ∈ ts, u.dtype = t.dtype
  rows : node.kind = .linear → ∀ t, ts[0]? = some t → 2 ≤ t.rank
  /-- A sum of integers keeps their type, where the interpreter widens it. -/
  total : node.kind = .sum → ∀ t ∈ ts,
    t.dtype.isFloat = true ∨ node.attr? "dtype" = some (.dtype t.dtype)
  /-- An empty list of axes names none of them, where the interpreter takes all. -/
  axes : node.kind = .sum ∨ node.kind = .mean → node.axes? ≠ some (some [])
  exchange : node.kind = .transpose → ∀ t ∈ ts, t.rank ≠ 0
  /-- A zero in a reshape target copies an extent. -/
  extents : node.kind = .flatten → ∀ t ∈ ts, ∀ n ∈ t.dims, 0 < n
  /-- A merged extent is inferred from the number of elements, which a word has to hold. -/
  elements : node.kind = .flatten → ∀ t ∈ ts, Inference.volume t.dims < 2 ^ 64

/-! ## Converters follow the interpreter -/

namespace Converter

open Reference.Call Support Emit Inference

section

variable {g : Graph} {node : Node} {s : EmitState Reference.accelerator} {ts : List Tensor}
  {y : Tensor} {truncateWide : Bool} (hmatch : List.Forall₂ (g.Matches s) node.inputs ts)

include hmatch

/-- A function of the elements of a floating operand. -/
theorem follows_pointwise {m : Emit Reference.accelerator TensorRef} {f : Float → Float}
    (hsupport : floatUnary g node = .ok ()) (hrun : (on node ts).pointwise f = .ok y)
    (hm : ∀ x d, s.Supplies node 0 x d → d.dtype.isFloat = true →
      m.Answers ⟨g, node, truncateWide⟩ s d) :
    m.Answers ⟨g, node, truncateWide⟩ s y.sig := by
  obtain ⟨t, x, rfl, h0, hfloat⟩ := exists_float_operand hsupport hmatch
  rw [sig_of_pointwise rfl hfloat hrun]
  exact hm x t.sig h0 hfloat

/-- A function of the elements that keeps their type. -/
theorem follows_mapAs {m : Emit Reference.accelerator TensorRef} {f : Float → Float}
    (hsupport : tensors g node 1 = .ok ()) (hrun : (on node ts).mapAs id f = .ok y)
    (hm : ∀ x d, s.Supplies node 0 x d → m.Answers ⟨g, node, truncateWide⟩ s d) :
    m.Answers ⟨g, node, truncateWide⟩ s y.sig := by
  obtain ⟨t, x, rfl, h0⟩ := exists_operand hsupport hmatch
  rw [sig_of_mapAs rfl hrun]
  exact hm x t.sig h0

theorem follows_hardtanh (hkind : node.kind = .hardtanh)
    (hsupport : Support.hardtanh g node = .ok ()) (hrun : (on node ts).tensorResult = .ok y) :
    hardtanh.Answers ⟨g, node, truncateWide⟩ s y.sig := by
  obtain ⟨hunary, hrest⟩ := and_eq_ok.mp hsupport
  obtain ⟨hlow, hhigh⟩ := and_eq_ok.mp hrest
  obtain ⟨low, hlow⟩ := exists_float_of_number hlow
  obtain ⟨high, hhigh⟩ := exists_float_of_number hhigh
  simp only [tensorResult, on_node, hkind] at hrun
  obtain ⟨_, -, hrun⟩ := Outcome.bind_eq_ok.mp hrun
  obtain ⟨_, -, hrun⟩ := Outcome.bind_eq_ok.mp hrun
  exact .after (eval_float_of hlow) <| .after (eval_float_of hhigh) <|
    follows_pointwise hmatch hunary hrun fun _ _ h0 hfloat => answers_activation h0 hfloat

theorem follows_leakyRelu (hkind : node.kind = .leakyRelu)
    (hsupport : Support.leakyRelu g node = .ok ()) (hrun : (on node ts).tensorResult = .ok y) :
    leakyRelu.Answers ⟨g, node, truncateWide⟩ s y.sig := by
  obtain ⟨hunary, hslope⟩ := and_eq_ok.mp hsupport
  obtain ⟨slope, hslope⟩ := exists_float_of_number hslope
  simp only [tensorResult, on_node, hkind] at hrun
  obtain ⟨_, -, hrun⟩ := Outcome.bind_eq_ok.mp hrun
  exact .after (eval_float_of hslope) <|
    follows_pointwise hmatch hunary hrun fun _ _ h0 hfloat => answers_activation h0 hfloat

theorem follows_elu (hkind : node.kind = .elu) (hsupport : Support.elu g node = .ok ())
    (hrun : (on node ts).tensorResult = .ok y) :
    elu.Answers ⟨g, node, truncateWide⟩ s y.sig := by
  obtain ⟨hunary, hrest⟩ := and_eq_ok.mp hsupport
  obtain ⟨alpha, halpha⟩ := exists_float_of_number (and_eq_ok.mp hrest).1
  simp only [tensorResult, on_node, hkind] at hrun
  obtain ⟨_, -, hrun⟩ := Outcome.bind_eq_ok.mp hrun
  obtain ⟨_, -, hrun⟩ := Outcome.bind_eq_ok.mp hrun
  obtain ⟨_, -, hrun⟩ := Outcome.bind_eq_ok.mp hrun
  exact .after (eval_float_of halpha) <|
    follows_pointwise hmatch hunary hrun fun _ _ h0 hfloat => answers_activation h0 hfloat

theorem follows_gelu (hkind : node.kind = .gelu) (hsupport : Support.gelu g node = .ok ())
    (hrun : (on node ts).tensorResult = .ok y) :
    Converter.gelu.Answers ⟨g, node, truncateWide⟩ s y.sig := by
  have hunary := (and_eq_ok.mp hsupport).1
  simp only [tensorResult, on_node, hkind, Reference.Call.gelu] at hrun
  split at hrun
  · exact follows_pointwise hmatch hunary hrun fun _ _ h0 hfloat => answers_gelu h0 hfloat
  · split at hrun
    · exact follows_pointwise hmatch hunary hrun fun _ _ h0 hfloat => answers_gelu h0 hfloat
    · split at hrun
      · exact follows_pointwise hmatch hunary hrun fun _ _ h0 hfloat => answers_gelu h0 hfloat
      · cases hrun

theorem follows_clamp (hkind : node.kind = .clamp) (hsupport : Support.clamp g node = .ok ())
    (hrun : (on node ts).tensorResult = .ok y) :
    Converter.clamp.Answers ⟨g, node, truncateWide⟩ s y.sig := by
  simp only [tensorResult, on_node, hkind, Reference.Call.clamp] at hrun
  obtain ⟨_, -, hrun⟩ := Outcome.bind_eq_ok.mp hrun
  obtain ⟨_, -, hrun⟩ := Outcome.bind_eq_ok.mp hrun
  exact follows_mapAs hmatch (and_eq_ok.mp hsupport).1 hrun fun _ _ h0 => answers_clamp h0

theorem follows_prelu (hkind : node.kind = .prelu) (hsupport : floatBinary g node = .ok ())
    (hfits : node.FitsLayers ts) (hrun : (on node ts).tensorResult = .ok y) :
    Converter.prelu.Answers ⟨g, node, truncateWide⟩ s y.sig := by
  obtain ⟨htensors, hrest⟩ := and_eq_ok.mp hsupport
  obtain ⟨t, slope, x, z, rfl, h0, h1⟩ := exists_operands htensors hmatch
  have hfloat : t.dtype.isFloat = true :=
    isFloat_of_floating (and_eq_ok.mp hrest).1 (Graph.operandDType?_of_matches hmatch rfl)
  have hrank : slope.sig.rank ≤ 1 := slope.rank_sig ▸ hfits.slope hkind slope rfl
  simp only [tensorResult, on_node, hkind] at hrun
  rw [Kernel.sig_of_prelu (kernel_eq_ok.mp hrun)]
  exact answers_prelu h0 h1 hfloat hrank

omit hmatch in
theorem kind_of_pow {kind : OpKind} (h : binaryOp? kind = some .pow) : kind = .pow := by
  cases kind <;> first | rfl | cases h

theorem follows_binary {op : BinaryOp} (hop : binaryOp? node.kind = some op)
    (hsupport : Support.binary g node = .ok ()) (hfits : node.FitsLayers ts)
    (hrun : (on node ts).tensorResult = .ok y) :
    Converter.binary.Answers ⟨g, node, truncateWide⟩ s y.sig := by
  obtain ⟨hsame, hwhole⟩ := types_of_binary hsupport
  have hpow : op = .pow → ∀ t ∈ ts, t.dtype.isFloat = true := fun h =>
    hfits.power (kind_of_pow (h ▸ hop))
  rcases operands_of_binaryOperands (and_eq_ok.mp hsupport).1 with
    ⟨htensors, value, hother⟩ | htensors
  · obtain ⟨t, x, rfl, h0⟩ := exists_operand htensors hmatch
    have hoperand : node.operandDType? g 0 = some t.dtype :=
      Graph.operandDType?_of_matches hmatch rfl
    have hwhole := whole_of_wholeNumbers (hwhole t.dtype hoperand)
    have hsig : y.sig = t.sig := by
      rcases binary_of_binaryOp? hop hrun with ⟨f, hrun⟩ | ⟨hdiv, hrun⟩
      · exact sig_of_number hother (fun hint => (hwhole hint).2 value hother) hrun
      · refine sig_of_fraction hother ?_ hrun
        by_contra hint
        exact (hwhole (Bool.eq_false_iff.mpr hint)).1 hdiv
    rw [hsig]
    have hright : (rightOperand t.sig).Answers ⟨g, node, truncateWide⟩ s _ :=
      answers_rightOperand_number (length_of_tensors htensors) hother t.sig
    exact answers_binary hop h0 hright rfl (fun h => hpow h t List.mem_cons_self)
      (broadcast_units t.sig.dims)
  · obtain ⟨a, b, x, z, rfl, h0, h1⟩ := exists_operands htensors hmatch
    have hlhs : node.operandDType? g 0 = some a.dtype := Graph.operandDType?_of_matches hmatch rfl
    have hrhs : node.operandDType? g 1 = some b.dtype := Graph.operandDType?_of_matches hmatch rfl
    have hdtype : b.dtype = a.dtype := by
      rw [sameTypes, hlhs, hrhs] at hsame
      exact (of_decide_eq_true (require_eq_ok.mp hsame)).symm
    have hwhole := whole_of_wholeNumbers (hwhole a.dtype hlhs)
    obtain ⟨hresult, hdims⟩ : y.sig.dtype = a.dtype ∧
        broadcast a.sig.dims b.sig.dims = .ok y.sig.dims := by
      rcases binary_of_binaryOp? hop hrun with ⟨f, hrun⟩ | ⟨hdiv, hrun⟩
      · exact sig_of_pair hdtype hrun
      · refine sig_of_quotient hdtype ?_ hrun
        by_contra hint
        exact (hwhole (Bool.eq_false_iff.mpr hint)).1 hdiv
    rw [Tensor.sig_eq_iff.mpr ⟨hresult, rfl⟩]
    exact answers_binary hop h0 (answers_rightOperand_tensor (length_of_tensors htensors) h1) hdtype
      (fun h => hpow h a List.mem_cons_self) hdims

theorem follows_matmul (hkind : node.kind = .matmul) (hsupport : Support.matmul g node = .ok ())
    (hfits : node.FitsLayers ts) (hrun : (on node ts).tensorResult = .ok y) :
    Converter.matmul.Answers ⟨g, node, truncateWide⟩ s y.sig := by
  obtain ⟨hbinary, hrest⟩ := and_eq_ok.mp hsupport
  obtain ⟨htensors, hfloating⟩ := and_eq_ok.mp hbinary
  obtain ⟨hrows, hcolumns⟩ := and_eq_ok.mp hrest
  obtain ⟨a, b, x, z, rfl, h0, h1⟩ := exists_operands htensors hmatch
  have hfloat : a.dtype.isFloat = true :=
    isFloat_of_floating (and_eq_ok.mp hfloating).1 (Graph.operandDType?_of_matches hmatch rfl)
  have hdtype : b.dtype = a.dtype := hfits.factors (.inl hkind) a (by simp) b (by simp)
  have ha : 2 ≤ a.rank := rank_of_matrix hrows (Graph.operandRank?_of_matches hmatch rfl)
  have hb : 2 ≤ b.rank := rank_of_matrix hcolumns (Graph.operandRank?_of_matches hmatch rfl)
  simp only [tensorResult, on_node, hkind] at hrun
  have hproduct := kernel_eq_ok.mp hrun
  have hresult : y.dtype = a.dtype := by
    rw [Kernel.dtype_of_matmul hproduct, hdtype, Kernel.promote, if_pos rfl]
  rw [Tensor.sig_eq_iff.mpr ⟨hresult, rfl⟩]
  exact answers_matmul h0 h1 hfloat hdtype (a.rank_sig ▸ ha) (b.rank_sig ▸ hb)
    (Kernel.sig_of_matmul ha hb hproduct)

theorem follows_linear (hkind : node.kind = .linear) (hsupport : Support.linear g node = .ok ())
    (hfits : node.FitsLayers ts) (hrun : (on node ts).tensorResult = .ok y) :
    Converter.linear.Answers ⟨g, node, truncateWide⟩ s y.sig := by
  obtain ⟨hcount, hrest⟩ := and_eq_ok.mp hsupport
  have hcount : node.inputs.length = 2 ∨ node.inputs.length = 3 := by
    simpa using require_eq_ok.mp hcount
  rw [hmatch.length_eq] at hcount
  obtain ⟨t, weight, rest, rfl⟩ : ∃ t weight rest, ts = t :: weight :: rest := by
    match ts with
    | t :: weight :: rest => exact ⟨t, weight, rest, rfl⟩
    | [_] | [] => simp at hcount
  obtain ⟨x, h0⟩ : ∃ x, s.Supplies node 0 x t.sig := Graph.exists_supplies hmatch rfl
  obtain ⟨w, h1⟩ : ∃ w, s.Supplies node 1 w weight.sig := Graph.exists_supplies hmatch rfl
  have hfloat : t.dtype.isFloat = true := isFloat_of_floating
    (and_eq_ok.mp (and_eq_ok.mp hrest).2).1 (Graph.operandDType?_of_matches hmatch rfl)
  have hdtype : ∀ u ∈ t :: weight :: rest, u.dtype = t.dtype := fun u hu =>
    hfits.factors (.inr hkind) t List.mem_cons_self u hu
  simp only [tensorResult, on_node, hkind] at hrun
  obtain ⟨permuted, dims, hrank, hpermuted, hdims, hresult, hbias⟩ :=
    exists_of_linear (hfits.rows hkind t rfl) (hdtype weight (by simp)) hrun
  rw [Tensor.sig_eq_iff.mpr ⟨hresult, rfl⟩]
  rw [← weight.rank_sig] at hrank
  have hsame : weight.sig.dtype = t.sig.dtype := hdtype weight (by simp)
  refine answers_linear h0 h1 hfloat hrank hsame hpermuted hdims ?_
  have hlen := hmatch.length_eq
  cases rest with
  | nil =>
    rw [if_neg (by simp_all)]
    exact hbias
  | cons bias rest =>
    obtain ⟨z, h2⟩ : ∃ z, s.Supplies node 2 z bias.sig := Graph.exists_supplies hmatch rfl
    rw [if_pos (by simp_all)]
    exact ⟨z, bias.sig, h2, hdtype bias (by simp), hbias⟩

theorem follows_softmax (hkind : node.kind = .softmax) (hsupport : Support.softmax g node = .ok ())
    (hrun : (on node ts).tensorResult = .ok y) :
    Converter.softmax.Answers ⟨g, node, truncateWide⟩ s y.sig := by
  obtain ⟨hunary, hrest⟩ := and_eq_ok.mp hsupport
  obtain ⟨t, x, rfl, h0, hfloat⟩ := exists_float_operand hunary hmatch
  have hrequests := requests_of_requestedType (and_eq_ok.mp hrest).2
    (Graph.operandDType?_of_matches hmatch rfl)
  simp only [tensorResult, on_node, hkind] at hrun
  obtain ⟨n, axis, hn, haxis, hkernel⟩ := exists_of_softmax hfloat hrequests hrun
  rw [show y.sig = t.sig from Kernel.sig_of_softmax hkernel]
  exact answers_softmax h0 hfloat hn (t.rank_sig.symm ▸ haxis)
    (t.rank_sig.symm ▸ Kernel.lt_of_axisIndex haxis)

theorem follows_reduce {mean : Bool} (hkind : node.kind = if mean then .mean else .sum)
    (hsupport : Support.reduce g node = .ok ()) (hfits : node.FitsLayers ts)
    (hrun : (on node ts).reduce mean = .ok y) :
    Converter.reduce.Answers ⟨g, node, truncateWide⟩ s y.sig := by
  obtain ⟨htensors, hfloating, hrequested⟩ := requirements_of_reduce hsupport
  obtain ⟨t, x, rfl, h0⟩ := exists_operand htensors hmatch
  have hoperand : node.operandDType? g 0 = some t.dtype := Graph.operandDType?_of_matches hmatch rfl
  have hfloat : node.kind = .mean → t.dtype.isFloat = true := fun h =>
    isFloat_of_floating (hfloating h) hoperand
  have hkinds : node.kind = .sum ∨ node.kind = .mean := by
    cases mean
    · exact .inl hkind
    · exact .inr hkind
  have hdefault : t.dtype.isFloat = true ∨ node.attr? "dtype" = some (.dtype t.dtype) :=
    hkinds.elim (fun h => hfits.total h t List.mem_cons_self) fun h => .inl (hfloat h)
  obtain ⟨axes?, named, haxes, hnamed, hsig⟩ := exists_of_reduce
    (requests_of_requestedType hrequested hoperand) hdefault (hfits.axes hkinds) hrun
  rw [hsig]
  rw [← t.rank_sig] at hnamed ⊢
  exact answers_reduce h0 hfloat haxes hnamed

theorem follows_reshape (hkind : node.kind = .reshape) (hsupport : Support.reshape g node = .ok ())
    (hrun : (on node ts).tensorResult = .ok y) :
    Converter.reshape.Answers ⟨g, node, truncateWide⟩ s y.sig := by
  obtain ⟨target, htarget, hzero⟩ := exists_target hsupport
  obtain ⟨t, x, rfl, h0⟩ := exists_operand (and_eq_ok.mp hsupport).1 hmatch
  obtain ⟨dims, hdims, hreshape⟩ := exists_of_reshape htarget hkind hrun
  have hinferred : Inference.reshape t.sig.dims target = .ok (dims.map .fixed) :=
    reshape_of_resolveShape (.inr hzero) hdims
  rw [Kernel.sig_of_reshape hreshape]
  exact answers_reshape h0 htarget hinferred

theorem follows_permute (hkind : node.kind = .permute) (hsupport : Support.permute g node = .ok ())
    (hrun : (on node ts).tensorResult = .ok y) :
    Converter.permute.Answers ⟨g, node, truncateWide⟩ s y.sig := by
  obtain ⟨axes, haxes⟩ := exists_axes hsupport
  obtain ⟨t, x, rfl, h0⟩ := exists_operand (and_eq_ok.mp hsupport).1 hmatch
  obtain ⟨perm, hperm, hrun⟩ := exists_of_permute haxes hkind hrun
  obtain ⟨hlen, hnodup, -⟩ := Kernel.nodup_of_permute hrun
  obtain ⟨hdtype, hdims⟩ := Kernel.sig_of_permute hrun
  rw [Tensor.sig_eq_iff.mpr ⟨hdtype, rfl⟩]
  exact answers_permute h0 haxes (t.rank_sig.symm ▸ hperm) (t.rank_sig.symm ▸ hlen) hnodup hdims

theorem follows_transpose (hkind : node.kind = .transpose)
    (hsupport : Support.transpose g node = .ok ()) (hfits : node.FitsLayers ts)
    (hrun : (on node ts).tensorResult = .ok y) :
    Converter.transpose.Answers ⟨g, node, truncateWide⟩ s y.sig := by
  obtain ⟨t, x, rfl, h0⟩ := exists_operand (and_eq_ok.mp hsupport).1 hmatch
  simp only [tensorResult, on_node, hkind] at hrun
  obtain ⟨n, m, a, b, hn, hm, ha, hb, hrun⟩ := exists_of_transpose hrun
  obtain ⟨hdtype, hdims⟩ := Kernel.sig_of_permute hrun
  have hrank : t.rank ≠ 0 := hfits.exchange hkind t List.mem_cons_self
  have hmax : max t.rank 1 = t.rank := by omega
  have halt : a < t.rank := hmax ▸ Kernel.lt_of_axisIndex ha
  have hblt : b < t.rank := hmax ▸ Kernel.lt_of_axisIndex hb
  rw [Tensor.sig_eq_iff.mpr ⟨hdtype, rfl⟩]
  rw [← t.rank_sig] at ha hb halt hblt hdims
  exact answers_transpose h0 hn hm ha hb halt hblt hdims

theorem follows_flatten (hkind : node.kind = .flatten)
    (hsupport : Support.flatten g node = .ok ()) (hfits : node.FitsLayers ts)
    (hrun : (on node ts).tensorResult = .ok y) :
    Converter.flatten.Answers ⟨g, node, truncateWide⟩ s y.sig := by
  obtain ⟨t, x, rfl, h0⟩ := exists_operand (and_eq_ok.mp hsupport).1 hmatch
  simp only [tensorResult, on_node, hkind] at hrun
  by_cases hrank : t.rank = 0
  · rw [Kernel.sig_of_reshape (reshape_of_flatten_scalar hrank hrun)]
    exact answers_flatten_scalar h0 (t.rank_sig.trans hrank)
  · obtain ⟨first, last, hfirst, hlast, horder, hreshape⟩ := exists_of_flatten hrank hrun
    have hlt : last < t.rank := by
      have hlt := Kernel.lt_of_axisIndex hlast
      omega
    have hinferred := reshape_merging horder hlt (hfits.extents hkind t List.mem_cons_self)
      (hfits.elements hkind t List.mem_cons_self)
    rw [Kernel.sig_of_reshape hreshape]
    rw [← t.rank_sig] at hrank hfirst hlast
    exact answers_flatten h0 rfl hrank hfirst hlast horder hinferred

theorem follows_constantPad (hkind : node.kind = .constantPad)
    (hsupport : Support.pad g node = .ok ()) (hrun : (on node ts).tensorResult = .ok y) :
    Converter.pad.Answers ⟨g, node, truncateWide⟩ s y.sig := by
  obtain ⟨amounts, hamounts⟩ := exists_amounts hsupport
  obtain ⟨t, x, rfl, h0⟩ := exists_operand (and_eq_ok.mp hsupport).1 hmatch
  simp only [tensorResult, on_node, hkind] at hrun
  obtain ⟨hfits, hrun⟩ := exists_of_constantPad hamounts hrun
  obtain ⟨hdtype, hpre, hpost, hdims⟩ := Kernel.sig_of_pad hrun
  rw [Tensor.sig_eq_iff.mpr ⟨hdtype, rfl⟩]
  rw [← t.rank_sig] at hfits hpre hpost hdims
  exact answers_pad h0 hamounts hfits hpre hpost hdims

theorem follows_to (hkind : node.kind = .to) (hsupport : Support.cast g node = .ok ())
    (hrun : (on node ts).tensorResult = .ok y) :
    Converter.cast.Answers ⟨g, node, truncateWide⟩ s y.sig := by
  obtain ⟨t, x, rfl, h0⟩ := exists_operand (and_eq_ok.mp hsupport).1 hmatch
  have hcast : Converter.cast.Answers ⟨g, node, truncateWide⟩ s
      ⟨(node.dtype? "dtype").getD t.sig.dtype, t.sig.dims⟩ := answers_cast h0
  rw [eq_cast_of_to (attr?_of_cast hsupport) hkind hrun, t.sig_cast]
  exact hcast

/-- A copy. -/
theorem follows_tensor (hsupport : tensors g node 1 = .ok ())
    (hrun : (on node ts).tensor 0 = .ok y) :
    Converter.copy.Answers ⟨g, node, truncateWide⟩ s y.sig := by
  obtain ⟨t, x, rfl, h0⟩ := exists_operand hsupport hmatch
  obtain rfl : t = y := Except.ok.inj hrun
  exact answers_copy h0

omit hmatch in
/-- A weight. -/
theorem follows_constant (hkind : node.kind = .constant)
    (hsupport : Support.constant g node = .ok ()) (hfits : node.FitsLayers ts)
    (hrun : constantValue node = .tensor y) :
    Converter.constant.Answers ⟨g, node, truncateWide⟩ s y.sig := by
  obtain ⟨t, ht, hvalue⟩ := exists_weight hsupport
  obtain rfl : t = y := Datum.tensor.inj (hvalue.symm.trans hrun)
  exact answers_constant ht (hfits.weight hkind t ht)

/-- The converter of a supported node answers a tensor with the descriptor of the result. -/
theorem follows_interpreter {converter : Converter Reference.accelerator}
    (hconverter : Registry.standard Reference.accelerator node.kind = some converter)
    (hsupport : converter.support g node = .ok ()) (hfits : node.FitsLayers ts)
    (hrun : interpret node (ts.map .tensor) = .ok [.tensor y]) :
    ∃ x s', converter.convert.eval ⟨g, node, truncateWide⟩ s = (.ok [x], s') ∧ s.Grows s' ∧
      Network.describe? s'.network x = some y.sig := by
  have hsingle : ∀ {support : Graph → Node → Support} {m : Emit Reference.accelerator TensorRef},
      some (Registry.single support m) = some converter →
      (support g node = .ok () → m.Answers ⟨g, node, truncateWide⟩ s y.sig) →
      ∃ x s', converter.convert.eval ⟨g, node, truncateWide⟩ s = (.ok [x], s') ∧ s.Grows s' ∧
        Network.describe? s'.network x = some y.sig := by
    rintro support m hsome hm
    obtain rfl := Option.some.inj hsome
    obtain ⟨x, s', hm, hgrows, hx⟩ := hm hsupport
    exact ⟨x, s', eval_bind_eq_ok.mpr ⟨x, s', hm, rfl⟩, hgrows, hx⟩
  have hresult : node.kind ∉ [OpKind.constant, .size, .print] →
      (on node ts).tensorResult = .ok y := fun hkind => tensorResult_of_interpret hkind hrun
  obtain ⟨kind, hkind⟩ : ∃ kind, node.kind = kind := ⟨_, rfl⟩
  rw [hkind] at hconverter hresult
  cases kind with
  | constant =>
    have hvalue : constantValue node = .tensor y := by
      simp only [interpret, results, hkind] at hrun
      exact (List.cons.inj (Except.ok.inj hrun)).1
    exact hsingle hconverter fun h => follows_constant hkind h hfits hvalue
  | relu =>
    refine hsingle hconverter fun h => ?_
    have hrun := hresult (by decide)
    simp only [tensorResult, on_node, hkind] at hrun
    obtain ⟨t, x, rfl, h0, hfloat⟩ := exists_float_operand h hmatch
    rw [sig_of_mapAs rfl hrun]
    exact answers_activation h0 hfloat
  | sigmoid | tanh =>
    refine hsingle hconverter fun h => ?_
    have hrun := hresult (by decide)
    simp only [tensorResult, on_node, hkind] at hrun
    exact follows_pointwise hmatch h hrun fun _ _ h0 hfloat => answers_activation h0 hfloat
  | hardtanh =>
    exact hsingle hconverter fun h => follows_hardtanh hmatch hkind h (hresult (by decide))
  | leakyRelu =>
    exact hsingle hconverter fun h => follows_leakyRelu hmatch hkind h (hresult (by decide))
  | elu => exact hsingle hconverter fun h => follows_elu hmatch hkind h (hresult (by decide))
  | gelu => exact hsingle hconverter fun h => follows_gelu hmatch hkind h (hresult (by decide))
  | silu =>
    refine hsingle hconverter fun h => ?_
    have hrun := hresult (by decide)
    simp only [tensorResult, on_node, hkind] at hrun
    exact follows_pointwise hmatch h hrun fun _ _ h0 hfloat => answers_silu h0 hfloat
  | prelu =>
    exact hsingle hconverter fun h => follows_prelu hmatch hkind h hfits (hresult (by decide))
  | add | sub | mul | div | pow | maximum | minimum =>
    refine hsingle hconverter fun h => ?_
    exact follows_binary hmatch (by rw [hkind]; rfl) h hfits (hresult (by decide))
  | neg | abs =>
    refine hsingle hconverter fun h => ?_
    have hrun := hresult (by decide)
    simp only [tensorResult, on_node, hkind] at hrun
    exact follows_mapAs hmatch h hrun fun _ _ h0 =>
      answers_unary (by rw [hkind]; rfl) h0 (by simp)
  | exp | log | sqrt | erf =>
    refine hsingle hconverter fun h => ?_
    have hrun := hresult (by decide)
    simp only [tensorResult, on_node, hkind] at hrun
    exact follows_pointwise hmatch h hrun fun _ _ h0 hfloat =>
      answers_unary (by rw [hkind]; rfl) h0 (.inr (.inr hfloat))
  | clamp => exact hsingle hconverter fun h => follows_clamp hmatch hkind h (hresult (by decide))
  | matmul =>
    exact hsingle hconverter fun h => follows_matmul hmatch hkind h hfits (hresult (by decide))
  | linear =>
    exact hsingle hconverter fun h => follows_linear hmatch hkind h hfits (hresult (by decide))
  | softmax =>
    exact hsingle hconverter fun h => follows_softmax hmatch hkind h (hresult (by decide))
  | sum | mean =>
    refine hsingle hconverter fun h => ?_
    have hrun := hresult (by decide)
    simp only [tensorResult, on_node, hkind] at hrun
    refine follows_reduce hmatch ?_ h hfits hrun
    exact hkind
  | reshape =>
    exact hsingle hconverter fun h => follows_reshape hmatch hkind h (hresult (by decide))
  | permute =>
    exact hsingle hconverter fun h => follows_permute hmatch hkind h (hresult (by decide))
  | transpose =>
    exact hsingle hconverter fun h => follows_transpose hmatch hkind h hfits (hresult (by decide))
  | flatten =>
    exact hsingle hconverter fun h => follows_flatten hmatch hkind h hfits (hresult (by decide))
  | constantPad =>
    exact hsingle hconverter fun h => follows_constantPad hmatch hkind h (hresult (by decide))
  | «to» => exact hsingle hconverter fun h => follows_to hmatch hkind h (hresult (by decide))
  | dropout =>
    refine hsingle hconverter fun h => ?_
    have hrun := hresult (by decide)
    simp only [tensorResult, on_node, hkind] at hrun
    split at hrun
    · cases hrun
    · exact follows_tensor hmatch (and_eq_ok.mp h).1 hrun
  | contiguous =>
    refine hsingle hconverter fun h => ?_
    have hrun := hresult (by decide)
    simp only [tensorResult, on_node, hkind] at hrun
    exact follows_tensor hmatch h hrun
  | cumsum | size | branch | loop | print | engineCall => cases hconverter

end

/-- What has a converter has one tensor as its result. -/
theorem exists_tensor_of_interpret {converter : Converter Reference.accelerator} {g : Graph}
    {node : Node} {args results : List Datum}
    (hconverter : Registry.standard Reference.accelerator node.kind = some converter)
    (hsupport : converter.support g node = .ok ()) (hrun : interpret node args = .ok results) :
    ∃ y, results = [.tensor y] := by
  by_cases hconstant : node.kind = .constant
  · rw [hconstant] at hconverter
    obtain rfl := Option.some.inj hconverter
    obtain ⟨t, -, hvalue⟩ := exists_weight hsupport
    simp only [interpret, Call.results, hconstant] at hrun
    exact ⟨t, by rw [← Except.ok.inj hrun, hvalue]⟩
  · have hother : ∀ kind, Registry.standard Reference.accelerator kind = none →
        node.kind ≠ kind := by
      rintro kind hnone rfl
      rw [hconverter] at hnone
      cases hnone
    obtain ⟨y, -, hy⟩ := (results_eq_ok hconstant (hother .size rfl) (hother .print rfl)).mp hrun
    exact ⟨y, hy⟩

end Converter

/-! ## Registries -/

/-- Everything that is computed has the type that its value declares. -/
def Graph.TypesExact (g : Graph) (bound : Bindings) : Prop :=
  ∀ v t, bound.read v = .ok (.tensor t) → g.tensorType? v = some (.of t.dtype t.dims)

namespace EmitState

variable {s s' : EmitState Reference.accelerator} {bound : Bindings} {values : List ValueId}

/-- Values stand for network tensors with the descriptors of what is computed. -/
def Carries (s : EmitState Reference.accelerator) (bound : Bindings) (values : List ValueId) :
    Prop :=
  ∀ v ∈ values, ∃ t x, bound.read v = .ok (.tensor t) ∧ s.tensor? v = some x ∧
    Network.describe? s.network x = some t.sig

/-- Operands that are carried are tensors. -/
theorem Carries.exists_matches {g : Graph} (h : s.Carries bound values)
    (htyped : g.TypesExact bound) {vs : List ValueId} (hvs : vs ⊆ values) {args : List Datum}
    (hargs : vs.mapM bound.read = .ok args) :
    ∃ ts : List Tensor, args = ts.map .tensor ∧ List.Forall₂ (g.Matches s) vs ts := by
  induction vs generalizing args with
  | nil =>
    obtain rfl := Outcome.pure_eq_ok.mp hargs
    exact ⟨[], rfl, .nil⟩
  | cons v vs ih =>
    obtain ⟨a, rest, ha, hrest, rfl⟩ := Outcome.mapM_cons_eq_ok.mp hargs
    obtain ⟨hv, hvs⟩ := List.cons_subset.mp hvs
    obtain ⟨t, x, ht, hx, hdescribed⟩ := h v hv
    obtain ⟨ts, rfl, hts⟩ := ih hvs hrest
    obtain rfl := Except.ok.inj (ht.symm.trans ha)
    exact ⟨t :: ts, rfl, .cons ⟨htyped v t ht, x, hx, hdescribed⟩ hts⟩

/-- A result is carried from when it is bound. -/
theorem Carries.bind (h : s.Carries bound values) (hgrows : s.Grows s') {v : ValueId} {t : Tensor}
    {x : TensorRef} (ht : bound.read v = .ok (.tensor t))
    (hx : Network.describe? s'.network x = some t.sig) :
    (s'.bind v x).Carries bound (values ++ [v]) := by
  intro w hw
  by_cases hwv : w = v
  · subst hwv
    exact ⟨t, x, ht, List.lookup_cons_self, hx⟩
  · have hw : w ∈ values := by simpa [hwv] using hw
    obtain ⟨u, z, hu, hz, hdescribed⟩ := h w hw
    refine ⟨u, z, hu, ?_, hgrows.network z _ hdescribed⟩
    have hlookup : ((v, x) :: s'.bound).lookup w = s'.bound.lookup w := by
      rw [List.lookup_cons, beq_eq_false_iff_ne.mpr hwv]
    exact hlookup.trans (hgrows.bound ▸ hz)

end EmitState

/-- A tensor may stand for a result that is declared with its type. -/
theorem Emit.eval_bindOutputs_of {site : EmitSite} {s : EmitState Reference.accelerator}
    {v : ValueId} {x : TensorRef} {y : Tensor} (hv : site.node.outputs = [v])
    (hx : Network.describe? s.network x = some y.sig)
    (hdeclared : site.graph.tensorType? v = some (.of y.dtype y.dims)) :
    (bindOutputs [x]).eval site s = (.ok (), s.bind v x) := by
  have hfits : fits site.truncateWide (.of y.dtype y.dims) y.sig = true := by
    simp [fits, TensorType.of, TensorType.rank?, Tensor.sig, TensorSig.of, TensorSig.rank]
  have hbind : (bindOutput v x).eval site s = (.ok (), s.bind v x) := by
    have hx' : Reference.accelerator.describe? s.network x = some y.sig := hx
    rw [eval_bindOutput, hx', hdeclared]
    exact if_pos hfits
  rw [bindOutputs, eval_bind, eval_node]
  dsimp only
  rw [hv, if_neg (by simp)]
  exact eval_bind_eq_ok.mpr ⟨(), _, hbind, rfl⟩

namespace Registry

variable {r : Registry Reference.accelerator} {g : Graph} {node : Node} {bound : Bindings}
  {s : EmitState Reference.accelerator} {values : List ValueId}

/-- What the registry supports and the interpreter runs becomes layers, if it fits them. -/
theorem exists_convert (hr : r.IsPart) (hsupport : r.support g node = .ok ())
    (hsolves : bound.Solves Reference.interpret node) (htyped : g.TypesExact bound)
    (hfits : ∀ ts, node.inputs.mapM bound.read = .ok (ts.map .tensor) → node.FitsLayers ts)
    (hinputs : node.inputs ⊆ values) (hcarries : s.Carries bound values) (truncateWide : Bool) :
    ∃ s', r.convert g truncateWide s node = (.ok (), s') ∧
      s'.Carries bound (values ++ node.outputs) ∧ s'.outputs = s.outputs := by
  obtain ⟨converter, hconverter⟩ := exists_converter hsupport
  have hstandard := hr.eq_standard hconverter
  have hpredicate := support_of_converter hsupport hconverter
  obtain ⟨args, results, hargs, hrun, houtputs⟩ := hsolves
  obtain ⟨ts, rfl, hmatch⟩ := hcarries.exists_matches htyped hinputs hargs
  obtain ⟨y, rfl⟩ := Converter.exists_tensor_of_interpret hstandard hpredicate hrun
  obtain ⟨v, hv, hread⟩ : ∃ v, node.outputs = [v] ∧ bound.read v = .ok (.tensor y) := by
    have hlen : node.outputs.length = 1 := (Outcome.mapM_eq_ok.mp houtputs).length_eq
    obtain ⟨v, hv⟩ := List.length_eq_one_iff.mp hlen
    rw [hv] at houtputs
    obtain ⟨a, rest, ha, -, heq⟩ := Outcome.mapM_cons_eq_ok.mp houtputs
    exact ⟨v, hv, (List.cons.inj heq).1 ▸ ha⟩
  obtain ⟨x, s', hconvert, hgrows, hx⟩ : ∃ x s', converter.convert.eval ⟨g, node, truncateWide⟩ s =
      (.ok [x], s') ∧ s.Grows s' ∧ Network.describe? s'.network x = some y.sig :=
    Converter.follows_interpreter hmatch hstandard hpredicate (hfits ts hargs) hrun
  refine ⟨s'.bind v x, ?_, ?_, hgrows.outputs⟩
  · rw [convert_of_support hsupport hconverter]
    exact Emit.eval_bind_eq_ok.mpr
      ⟨[x], s', hconvert, Emit.eval_bindOutputs_of hv hx (htyped v y hread)⟩
  · rw [hv]
    exact hcarries.bind hgrows hread hx

end Registry

end HybridGraph
