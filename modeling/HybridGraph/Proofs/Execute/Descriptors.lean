import HybridGraph.Conversion.Converters
import HybridGraph.Proofs.Engine.Inferred
import HybridGraph.Proofs.Execute.Elementwise
/-!
# Descriptors of results

What a node that the reference interpreter runs has read from its attributes, and the descriptor of
what it computes (`Tensor.sig`).  Attributes are read from the node alone, since no operand is left
to carry one.
-/

namespace HybridGraph

/-- No result type is requested, or the given one. -/
def Node.Requests (node : Node) (dtype : DType) : Prop :=
  node.attr? "dtype" = none ∨ node.attr? "dtype" = some .none ∨
    node.attr? "dtype" = some (.dtype dtype)

namespace Reference.Call

variable {call : Call} {t y : Tensor}

/-- A node on tensors. -/
def on (node : Node) (ts : List Tensor) : Call := ⟨node, ts.map .tensor⟩

/-- The first operand is read. -/
theorem bind_tensor {α : Type} {node : Node} {ts : List Tensor} (f : Tensor → Except ExecError α) :
    ((on node (t :: ts)).tensor 0 >>= f) = f t := rfl

@[simp] theorem on_node (node : Node) (ts : List Tensor) : (on node ts).node = node := rfl

/-- The tensor of a node that has one as its result. -/
theorem tensorResult_of_interpret {node : Node} {ts : List Tensor}
    (hkind : node.kind ∉ [OpKind.constant, .size, .print])
    (h : interpret node (ts.map .tensor) = .ok [.tensor y]) :
    (on node ts).tensorResult = .ok y := by
  simp only [List.mem_cons, List.not_mem_nil, or_false, not_or] at hkind
  obtain ⟨t, ht, hty⟩ := (results_eq_ok hkind.1 hkind.2.1 hkind.2.2).mp h
  obtain rfl := Datum.tensor.inj (List.cons.inj hty).1
  exact ht

theorem axis_eq_ok {n : Int} {rank axis : Nat} :
    call.axis n rank = .ok axis ↔ Kernel.axisIndex n rank = .ok axis :=
  Outcome.mapError_eq_ok

theorem axes_eq_ok {ns : List Int} {rank : Nat} {axes : List Nat} :
    ns.mapM (call.axis · rank) = .ok axes ↔ ns.mapM (Kernel.axisIndex · rank) = .ok axes := by
  rw [Outcome.mapM_eq_ok, Outcome.mapM_eq_ok]
  simp only [axis_eq_ok]

/-- A number that may be absent is read as on the node. -/
theorem eq_of_float? {name : String} {found : Option Float}
    (hattr : call.attr? name = call.node.attr? name) (h : call.float? name = .ok found) :
    found = call.node.float? name := by
  unfold float? at h
  rw [hattr] at h
  unfold Node.float?
  split at h
  · next hnone =>
    obtain rfl := Except.ok.inj h
    rw [hnone]
    rfl
  · next hnone =>
    obtain rfl := Except.ok.inj h
    rw [hnone]
    rfl
  · next a _ ha =>
    rw [ha, Option.bind_some]
    split at h
    · next value hvalue =>
      obtain rfl := Except.ok.inj h
      rw [hvalue]
    · cases h

/-- A number that is read with a default is read so on the node. -/
theorem eq_of_float {name : String} {default value : Float}
    (hattr : call.attr? name = call.node.attr? name) (h : call.float name default = .ok value) :
    value = (call.node.float? name).getD default := by
  obtain ⟨found, hfound, h⟩ := Outcome.bind_eq_ok.mp h
  obtain rfl := Outcome.pure_eq_ok.mp h
  rw [eq_of_float? hattr hfound]

theorem sig_of_mapAs {dtype : DType → DType} {f : Float → Float} (h0 : call.tensor 0 = .ok t)
    (h : call.mapAs dtype f = .ok y) : y.sig = ⟨dtype t.dtype, t.sig.dims⟩ := by
  obtain ⟨x, hx, h⟩ := Outcome.bind_eq_ok.mp h
  obtain rfl := Except.ok.inj (h0.symm.trans hx)
  exact Kernel.sig_of_map (kernel_eq_ok.mp h)

theorem sig_of_pointwise {f : Float → Float} (h0 : call.tensor 0 = .ok t)
    (hfloat : t.dtype.isFloat = true) (h : call.pointwise f = .ok y) : y.sig = t.sig := by
  rw [sig_of_mapAs h0 h, Kernel.floatResult, if_pos hfloat]
  rfl

section

variable {node : Node} {name : String}

/-! ### One operand -/

theorem int?_of_int {n : Int} (h : (on node [t]).int name = .ok n) : node.int? name = some n := by
  have hattr : (on node [t]).attr? name = node.attr? name := attr?_of_one_operand
  unfold Call.int at h
  rw [hattr] at h
  split at h
  · next found =>
    obtain rfl := Except.ok.inj h
    exact found
  · cases h

theorem ints_of_ints? {ns : List Int} (h : node.ints? name = some ns) :
    (on node [t]).ints name = .ok ns := by
  obtain ⟨a, ha, hns⟩ := Option.bind_eq_some_iff.mp h
  have hattr : (on node [t]).attr? name = some a := attr?_of_one_operand.trans ha
  cases a <;> cases hns
  unfold Call.ints
  rw [hattr]

/-- A result has a type if it is requested, or nothing is and the result has it anyway. -/
theorem exists_requested {dtype default : DType} (h : node.Requests dtype)
    (hdefault : default = dtype ∨ node.attr? "dtype" = some (.dtype dtype)) :
    ∃ requested, (on node [t]).dtype? "dtype" = .ok requested ∧
      requested.getD default = dtype := by
  have hattr : (on node [t]).attr? "dtype" = node.attr? "dtype" := attr?_of_one_operand
  unfold dtype?
  rw [hattr]
  rcases h with h | h | h
  · exact ⟨none, by rw [h], hdefault.resolve_right (by simp [h])⟩
  · exact ⟨none, by rw [h], hdefault.resolve_right (by simp [h])⟩
  · exact ⟨some dtype, by rw [h], rfl⟩

theorem exists_of_softmax (hfloat : t.dtype.isFloat = true) (hrequests : node.Requests t.dtype)
    (h : (on node [t]).softmax = .ok y) :
    ∃ n axis, node.int? "dim" = some n ∧ Kernel.axisIndex n t.rank = .ok axis ∧
      Kernel.softmax t axis t.dtype = .ok y := by
  have hdefault : Kernel.floatResult t.dtype = t.dtype := if_pos hfloat
  obtain ⟨requested, hdtype, hresult⟩ := exists_requested hrequests (.inl hdefault)
  unfold Call.softmax at h
  rw [bind_tensor] at h
  rw [Outcome.bind_of_eq_ok hdtype] at h
  obtain ⟨n, hn, h⟩ := Outcome.bind_eq_ok.mp h
  obtain ⟨axis, haxis, h⟩ := Outcome.bind_eq_ok.mp h
  have hkernel := kernel_eq_ok.mp h
  rw [hresult] at hkernel
  exact ⟨n, axis, int?_of_int hn, axis_eq_ok.mp haxis, hkernel⟩

/-- The axes of a reduction are those that are named, or all of them. -/
theorem exists_named_of_reductionAxes {rank : Nat} {named : List Nat}
    (haxes : node.axes? ≠ some (some []))
    (h : (on node [t]).reductionAxes rank = .ok named) :
    ∃ axes?, node.axes? = some axes? ∧
      axes?.elim (.ok (List.range rank)) (·.mapM (Kernel.axisIndex · rank)) = .ok named := by
  have hattr : (on node [t]).attr? "dim" = node.attr? "dim" := attr?_of_one_operand
  unfold reductionAxes at h
  rw [hattr] at h
  unfold Node.axes? at haxes ⊢
  split at h
  · next hdim => exact ⟨none, by rw [hdim], congrArg Except.ok (Except.ok.inj h)⟩
  · next hdim => exact ⟨none, by rw [hdim], congrArg Except.ok (Except.ok.inj h)⟩
  · next hdim => exact absurd (by rw [hdim]) haxes
  · next n hdim =>
    obtain ⟨axis, haxis, h⟩ := Outcome.bind_eq_ok.mp h
    obtain rfl := Outcome.pure_eq_ok.mp h
    refine ⟨some [n], by rw [hdim], ?_⟩
    exact Outcome.mapM_cons_eq_ok.mpr ⟨axis, [], axis_eq_ok.mp haxis, rfl, rfl⟩
  · next ns _ hdim => exact ⟨some ns, by rw [hdim], axes_eq_ok.mp h⟩
  · cases h

/-- A reduction that keeps the type of its operand. -/
theorem kernel_of_reduce {mean : Bool} (hrequests : node.Requests t.dtype)
    (hdefault : t.dtype.isFloat = true ∨ node.attr? "dtype" = some (.dtype t.dtype))
    (h : (on node [t]).reduce mean = .ok y) :
    ∃ named, (on node [t]).reductionAxes t.rank = .ok named ∧
      Kernel.reduce t ((List.range (max t.rank 1)).filter named.contains)
        ((node.bool? "keepdim").getD false) mean t.dtype = .ok y := by
  have hdefault : (if t.dtype.isFloat then t.dtype else .i64) = t.dtype ∨
      node.attr? "dtype" = some (.dtype t.dtype) := hdefault.imp_left fun hfloat => if_pos hfloat
  obtain ⟨requested, hdtype, hresult⟩ := exists_requested hrequests hdefault
  have hkeep : (on node [t]).flag "keepdim" = (node.bool? "keepdim").getD false := by
    rw [flag, on, List.map_singleton, attr?_of_one_operand]
    rfl
  unfold Call.reduce at h
  rw [bind_tensor] at h
  obtain ⟨named, hnamed, h⟩ := Outcome.bind_eq_ok.mp h
  refine ⟨named, hnamed, ?_⟩
  split at h
  · cases h
  · rw [Outcome.bind_of_eq_ok hdtype] at h
    have h := kernel_eq_ok.mp h
    rwa [hresult, Tensor.cast, if_pos rfl, hkeep] at h

theorem exists_of_reduce {mean : Bool} (hrequests : node.Requests t.dtype)
    (hdefault : t.dtype.isFloat = true ∨ node.attr? "dtype" = some (.dtype t.dtype))
    (haxes : node.axes? ≠ some (some [])) (h : (on node [t]).reduce mean = .ok y) :
    ∃ axes? named, node.axes? = some axes? ∧
      axes?.elim (.ok (List.range t.rank)) (·.mapM (Kernel.axisIndex · t.rank)) = .ok named ∧
      y.sig = ⟨t.dtype, Inference.reduceExtents t.sig.dims
        ((List.range (max t.rank 1)).filter named.contains)
        ((node.bool? "keepdim").getD false)⟩ := by
  obtain ⟨named, hread, h⟩ := kernel_of_reduce hrequests hdefault h
  obtain ⟨axes?, haxes?, hnamed⟩ := exists_named_of_reductionAxes haxes hread
  exact ⟨axes?, named, haxes?, hnamed, Kernel.sig_of_reduce h⟩

theorem exists_of_reshape {target : List Int} (htarget : node.ints? "shape" = some target)
    (hkind : node.kind = .reshape) (h : (on node [t]).tensorResult = .ok y) :
    ∃ dims, Kernel.resolveShape t.dims target false = .ok dims ∧ Kernel.reshape t dims = .ok y := by
  simp only [tensorResult, on_node, hkind] at h
  rw [bind_tensor] at h
  have hints : (on node [t]).ints "shape" = .ok target := ints_of_ints? htarget
  rw [Outcome.bind_of_eq_ok hints] at h
  exact Outcome.bind_eq_ok.mp (kernel_eq_ok.mp h)

theorem exists_of_permute {axes : List Int} (haxes : node.ints? "dims" = some axes)
    (hkind : node.kind = .permute) (h : (on node [t]).tensorResult = .ok y) :
    ∃ perm, axes.mapM (Kernel.axisIndex · t.rank) = .ok perm ∧ Kernel.permute t perm = .ok y := by
  simp only [tensorResult, on_node, hkind] at h
  rw [bind_tensor] at h
  have hints : (on node [t]).ints "dims" = .ok axes := ints_of_ints? haxes
  rw [Outcome.bind_of_eq_ok hints] at h
  obtain ⟨perm, hperm, h⟩ := Outcome.bind_eq_ok.mp h
  exact ⟨perm, axes_eq_ok.mp hperm, kernel_eq_ok.mp h⟩

theorem exists_of_transpose (h : (on node [t]).transpose = .ok y) :
    ∃ n m a b, node.int? "dim0" = some n ∧ node.int? "dim1" = some m ∧
      Kernel.axisIndex n t.rank = .ok a ∧ Kernel.axisIndex m t.rank = .ok b ∧
      Kernel.permute t (Kernel.exchange t.rank a b) = .ok y := by
  unfold Call.transpose at h
  rw [bind_tensor] at h
  obtain ⟨n, hn, h⟩ := Outcome.bind_eq_ok.mp h
  obtain ⟨a, ha, h⟩ := Outcome.bind_eq_ok.mp h
  obtain ⟨m, hm, h⟩ := Outcome.bind_eq_ok.mp h
  obtain ⟨b, hb, h⟩ := Outcome.bind_eq_ok.mp h
  exact ⟨n, m, a, b, int?_of_int hn, int?_of_int hm, axis_eq_ok.mp ha, axis_eq_ok.mp hb,
    kernel_eq_ok.mp h⟩

/-- A tensor without axes gets one. -/
theorem reshape_of_flatten_scalar (hrank : t.rank = 0) (h : (on node [t]).flatten = .ok y) :
    Kernel.reshape t [1] = .ok y := by
  unfold Call.flatten at h
  rw [bind_tensor, if_pos hrank] at h
  exact kernel_eq_ok.mp h

theorem exists_of_flatten (hrank : t.rank ≠ 0) (h : (on node [t]).flatten = .ok y) :
    ∃ first last,
      Kernel.axisIndex ((node.int? "start_dim").getD 0) t.rank = .ok first ∧
      Kernel.axisIndex ((node.int? "end_dim").getD (-1)) t.rank = .ok last ∧ first ≤ last ∧
      Kernel.reshape t (flattenedExtents t.dims first last) = .ok y := by
  have hattr : ∀ name, ((on node [t]).attr? name).bind Attr.int? = node.int? name := fun name => by
    rw [on, List.map_singleton, attr?_of_one_operand]
    rfl
  unfold Call.flatten at h
  rw [bind_tensor] at h
  rw [if_neg hrank] at h
  simp only [hattr] at h
  split at h
  · next first last hfirst hlast =>
    split at h
    · next horder => exact ⟨first, last, hfirst, hlast, horder, kernel_eq_ok.mp h⟩
    · cases h
  · cases h

theorem exists_of_constantPad {amounts : List Int} (hamounts : node.ints? "pad" = some amounts)
    (h : (on node [t]).constantPad = .ok y) :
    ¬ (amounts.length % 2 ≠ 0 ∨ t.rank < amounts.length / 2) ∧
      Kernel.pad t (Kernel.padSides t.rank amounts).1 (Kernel.padSides t.rank amounts).2
        ((node.float? "value").getD 0.0) = .ok y := by
  have hints : (on node [t]).ints "pad" = .ok amounts := ints_of_ints? hamounts
  unfold constantPad at h
  rw [bind_tensor] at h
  rw [Outcome.bind_of_eq_ok hints] at h
  obtain ⟨value, hvalue, h⟩ := Outcome.bind_eq_ok.mp h
  split at h
  · cases h
  · next hfits => exact ⟨hfits, eq_of_float attr?_of_one_operand hvalue ▸ kernel_eq_ok.mp h⟩

/-- A conversion to a type that is named, if at all, by itself. -/
theorem eq_cast_of_to
    (hattr : node.attr? "dtype" = none ∨ ∃ dtype, node.attr? "dtype" = some (.dtype dtype))
    (hkind : node.kind = .to) (h : (on node [t]).tensorResult = .ok y) :
    y = t.cast ((node.dtype? "dtype").getD t.dtype) := by
  have hdtype : (on node [t]).dtype? "dtype" = .ok (node.dtype? "dtype") := by
    have hread : (on node [t]).attr? "dtype" = node.attr? "dtype" := attr?_of_one_operand
    unfold Call.dtype? Node.dtype?
    rw [hread]
    rcases hattr with hattr | ⟨dtype, hattr⟩
    · rw [hattr]
      rfl
    · rw [hattr]
      rfl
  simp only [tensorResult, on_node, hkind] at h
  rw [bind_tensor] at h
  rw [Outcome.bind_of_eq_ok hdtype] at h
  exact (Outcome.pure_eq_ok.mp h).symm

/-! ### Several operands -/

/-- Rows times the rows of a weight. -/
theorem exists_product {weight product : Tensor} (hrows : 2 ≤ t.rank)
    (hdtype : weight.dtype = t.dtype)
    (h : (Kernel.permute weight [1, 0] >>= Kernel.matmul t) = .ok product) :
    product.dtype = t.dtype ∧ ∃ permuted,
      Inference.shuffleExtents weight.sig.dims (some [1, 0]) none = .ok permuted ∧
      Inference.productExtents t.sig.dims permuted = .ok product.sig.dims := by
  obtain ⟨turned, hturned, hproduct⟩ := Outcome.bind_eq_ok.mp h
  obtain ⟨-, -, hrank⟩ := Kernel.nodup_of_permute hturned
  obtain ⟨hsame, hpermuted⟩ := Kernel.sig_of_permute hturned
  refine ⟨?_, turned.sig.dims, hpermuted, Kernel.sig_of_matmul hrows hrank.ge hproduct⟩
  rw [Kernel.dtype_of_matmul hproduct, show turned.dtype = t.dtype from hsame.trans hdtype,
    Kernel.promote, if_pos rfl]

theorem exists_of_linear {weight : Tensor} {rest : List Tensor} (hrows : 2 ≤ t.rank)
    (hdtype : weight.dtype = t.dtype) (h : (on node (t :: weight :: rest)).linear = .ok y) :
    ∃ permuted dims, weight.rank = 2 ∧
      Inference.shuffleExtents weight.sig.dims (some [1, 0]) none = .ok permuted ∧
      Inference.productExtents t.sig.dims permuted = .ok dims ∧ y.dtype = t.dtype ∧
      match rest with
      | [] => y.sig.dims = dims
      | bias :: _ => Inference.broadcast dims bias.sig.dims = .ok y.sig.dims := by
  have hweight : (on node (t :: weight :: rest)).tensor 1 = .ok weight := rfl
  unfold Call.linear at h
  rw [bind_tensor] at h
  rw [Outcome.bind_of_eq_ok hweight] at h
  split at h
  · cases h
  · next hrank =>
    obtain ⟨product, hproduct, h⟩ := Outcome.bind_eq_ok.mp h
    obtain ⟨hresult, permuted, hpermuted, hdims⟩ :=
      exists_product hrows hdtype (kernel_eq_ok.mp hproduct)
    refine ⟨permuted, product.sig.dims, not_not.mp hrank, hpermuted, hdims, ?_⟩
    cases rest with
    | nil =>
      obtain rfl := Outcome.pure_eq_ok.mp h
      exact ⟨hresult, rfl⟩
    | cons bias rest =>
      obtain ⟨hsum, hextents⟩ := Kernel.sig_of_binary (kernel_eq_ok.mp h)
      exact ⟨hsum.trans hresult, hextents⟩

end

/-- A result of two operands of one type. -/
theorem sig_of_pair {a b : Tensor} {node : Node} {f : Float → Float → Float}
    (hdtype : b.dtype = a.dtype) (h : (on node [a, b]).binary f = .ok y) :
    y.sig.dtype = a.dtype ∧ Inference.broadcast a.sig.dims b.sig.dims = .ok y.sig.dims := by
  obtain ⟨hresult, hdims⟩ := Kernel.sig_of_binary (kernel_eq_ok.mp h)
  rw [hdtype, Kernel.promote, if_pos rfl] at hresult
  exact ⟨hresult, hdims⟩

/-- A quotient of two floating operands of one type. -/
theorem sig_of_quotient {a b : Tensor} {node : Node} (hdtype : b.dtype = a.dtype)
    (hfloat : a.dtype.isFloat = true) (h : (on node [a, b]).divide = .ok y) :
    y.sig.dtype = a.dtype ∧ Inference.broadcast a.sig.dims b.sig.dims = .ok y.sig.dims := by
  obtain ⟨hresult, hdims⟩ := Kernel.sig_of_binary (kernel_eq_ok.mp h)
  rw [hdtype, Kernel.promote, if_pos rfl, Kernel.floatResult, if_pos hfloat] at hresult
  exact ⟨hresult, hdims⟩

/-- A function of an operand and a number, which is whole if the operand holds whole numbers. -/
theorem kernel_of_number {node : Node} {x : Float} {f : Float → Float → Float}
    (hother : node.float? "other" = some x)
    (hwhole : t.dtype.isFloat = false → Number.hasFraction x = false)
    (h : (on node [t]).binary f = .ok y) : Kernel.map t t.dtype (f · x) = .ok y := by
  have hright : (on node [t]).right = .ok (.inr x) := right_of_other rfl hother
  unfold Call.binary at h
  rw [bind_tensor, Outcome.bind_of_eq_ok hright] at h
  have h := kernel_eq_ok.mp h
  rwa [if_neg] at h
  cases hfloat : t.dtype.isFloat <;> simp_all

theorem sig_of_number {node : Node} {x : Float} {f : Float → Float → Float}
    (hother : node.float? "other" = some x)
    (hwhole : t.dtype.isFloat = false → Number.hasFraction x = false)
    (h : (on node [t]).binary f = .ok y) : y.sig = t.sig :=
  Kernel.sig_of_map (kernel_of_number hother hwhole h)

/-- A quotient of a floating operand and a number. -/
theorem sig_of_fraction {node : Node} {x : Float} (hother : node.float? "other" = some x)
    (hfloat : t.dtype.isFloat = true) (h : (on node [t]).divide = .ok y) : y.sig = t.sig := by
  have hright : (on node [t]).right = .ok (.inr x) := right_of_other rfl hother
  unfold Call.divide at h
  rw [bind_tensor, Outcome.bind_of_eq_ok hright] at h
  rw [Kernel.sig_of_map (kernel_eq_ok.mp h), Kernel.floatResult, if_pos hfloat]
  rfl

/-- Binary kinds combine their operands element by element, or divide them. -/
theorem binary_of_binaryOp? {op : BinaryOp} (hop : Converter.binaryOp? call.node.kind = some op)
    (h : call.tensorResult = .ok y) :
    (∃ f, call.binary f = .ok y) ∨ call.node.kind = .div ∧ call.divide = .ok y := by
  unfold tensorResult at h
  unfold Converter.binaryOp? at hop
  split at hop
  · next hkind =>
    rw [hkind] at h
    obtain ⟨alpha, -, h⟩ := Outcome.bind_eq_ok.mp h
    exact .inl ⟨_, h⟩
  · next hkind =>
    rw [hkind] at h
    obtain ⟨alpha, -, h⟩ := Outcome.bind_eq_ok.mp h
    exact .inl ⟨_, h⟩
  · next hkind =>
    rw [hkind] at h
    exact .inl ⟨_, h⟩
  · next hkind =>
    rw [hkind] at h
    exact .inr ⟨hkind, h⟩
  · next hkind =>
    rw [hkind] at h
    exact .inl ⟨_, h⟩
  · next hkind =>
    rw [hkind] at h
    exact .inl ⟨_, h⟩
  · next hkind =>
    rw [hkind] at h
    exact .inl ⟨_, h⟩
  · cases hop

end Reference.Call

end HybridGraph
