import HybridGraph.Proofs.Execute.Traces
import HybridGraph.Proofs.Kernel.Monotone
import HybridGraph.Proofs.Lowering.FoldedRuns
/-!
# Larger inputs have larger values

Two calls of one node, of which the second has larger operands and the same attributes, have
results in the same order if both succeed:

    call.AtMost call' → call.results = .ok xs → call'.results = .ok xs' →
      List.Forall₂ Datum.AtMost xs xs'                                            (AtMost.results)

Scalars are not compared.  As a number on the right a scalar leaves the extents alone, but as an
attribute it may be an axis or a target shape, so attributes must agree.  They do in two runs of a
graph whose attribute operands are constants, and then all values of the run on the larger inputs
are at least those of the other run, however far both of them come.  Paddings and reshapes count in
machine integers, which the run on the larger inputs must not exceed:

    g.ConstantAttributes → List.Forall₂ Tensor.AtMost ts ts' → (g.trace interpret ts').Small →
      (g.trace interpret ts).read v = .ok x → (g.trace interpret ts').read v = .ok x' →
        x.AtMost x'                                                              (atMost_trace)
-/

namespace HybridGraph

/-- Scalars, or tensors of which the first has no larger extents. -/
inductive Datum.AtMost : Datum → Datum → Prop where
  | tensor {t u : Tensor} (h : t.AtMost u) : AtMost (.tensor t) (.tensor u)
  | scalar (a b : Attr) : AtMost (.scalar a) (.scalar b)

theorem Datum.AtMost.refl (x : Datum) : x.AtMost x := by
  cases x with
  | tensor t => exact .tensor (.refl t)
  | scalar a => exact .scalar a a

namespace Reference.Call

open Outcome

/-- Two calls of one node with the same attributes, the second one of larger operands whose elements
can be counted. -/
structure AtMost (call call' : Call) : Prop where
  node : call'.node = call.node
  args : List.Forall₂ Datum.AtMost call.args call'.args
  small : ∀ t, .tensor t ∈ call'.args → Inference.volume t.dims < 2 ^ 63
  attr : ∀ name, call'.attr? name = call.attr? name

theorem flattenedExtents_le {dims dims' : List Nat} (hle : List.Forall₂ (· ≤ ·) dims dims')
    (first last : Nat) : List.Forall₂ (· ≤ ·) (flattenedExtents dims first last)
      (flattenedExtents dims' first last) := by
  refine List.rel_append (List.forall₂_take _ hle) (.cons ?_ (List.forall₂_drop _ hle))
  rw [Inference.elementCount_eq_prod, Inference.elementCount_eq_prod]
  exact List.Forall₂.prod_le_prod' (List.forall₂_drop _ (List.forall₂_take _ hle))

namespace AtMost

variable {call call' : Call}

/-! ## Readers -/

theorem kernel {α : Type} {r : α → α → Prop} {x x' : Except KernelError α} (h : Related r x x') :
    Related r (call.kernel x) (call'.kernel x') := h.mapError

theorem fail {α : Type} (h : call.AtMost call') (fault : NodeFault) :
    (call'.fail fault : Except ExecError α) = call.fail fault := by
  unfold Call.fail
  rw [h.node]

theorem arg? (h : call.AtMost call') (operand : Nat) :
    Option.Rel Datum.AtMost (call.arg? operand) (call'.arg? operand) := by
  unfold Call.arg?
  cases hx : call.args[operand]? with
  | none =>
    have hlen : call.args.length ≤ operand := List.getElem?_eq_none_iff.mp hx
    rw [List.getElem?_eq_none (h.args.length_eq ▸ hlen)]
    exact .none
  | some x =>
    obtain ⟨y, hy, hle⟩ := exists_getElem?_of_forall₂ h.args hx
    rw [hy]
    exact .some hle

theorem tensor (h : call.AtMost call') (operand : Nat) :
    Related Tensor.AtMost (call.tensor operand) (call'.tensor operand) := by
  have harg := h.arg? operand
  unfold Call.tensor
  generalize call.arg? operand = x at harg ⊢
  generalize call'.arg? operand = x' at harg ⊢
  cases harg with
  | none => exact .errorLeft
  | some hle =>
    cases hle with
    | tensor hle => exact .ok hle
    | scalar a b => exact .errorLeft

theorem small_of_tensor (h : call.AtMost call') {operand : Nat} {t : Tensor}
    (ht : call'.tensor operand = .ok t) : Inference.volume t.dims < 2 ^ 63 := by
  unfold Call.tensor at ht
  split at ht
  · next hdatum =>
    obtain rfl := Except.ok.inj ht
    exact h.small _ (List.mem_of_getElem? hdatum)
  · cases ht
  · cases ht

/-- Operands in their order, the second one counted. -/
theorem counted (h : call.AtMost call') (operand : Nat) :
    Related (fun t u => t.AtMost u ∧ Inference.volume u.dims < 2 ^ 63) (call.tensor operand)
      (call'.tensor operand) :=
  fun _ _ ht hu => ⟨h.tensor operand _ _ ht hu, h.small_of_tensor hu⟩

/-- What stands on the right is a tensor in both calls, or a number in both. -/
theorem right (h : call.AtMost call') :
    Related (Sum.LiftRel Tensor.AtMost fun _ _ => True) call.right call'.right := by
  have harg := h.arg? 1
  unfold Call.right
  rw [h.node]
  generalize call.arg? 1 = x at harg ⊢
  generalize call'.arg? 1 = x' at harg ⊢
  cases harg with
  | none =>
    dsimp only
    split
    · exact .ok (.inr trivial)
    · exact .errorLeft
  | some hle =>
    cases hle with
    | tensor hle => exact .ok (.inl hle)
    | scalar a b =>
      dsimp only
      split
      · split
        · exact .ok (.inr trivial)
        · exact .errorRight
      · exact .errorLeft

theorem axis (h : call.AtMost call') (n : Int) (rank : Nat) :
    call'.axis n rank = call.axis n rank := by
  unfold Call.axis Call.kernel
  rw [h.node]

theorem int (h : call.AtMost call') (name : String) : call'.int name = call.int name := by
  unfold Call.int
  rw [h.attr, h.fail]

theorem ints (h : call.AtMost call') (name : String) : call'.ints name = call.ints name := by
  unfold Call.ints
  simp only [h.attr, h.fail]

theorem flag (h : call.AtMost call') (name : String) : call'.flag name = call.flag name := by
  unfold Call.flag
  rw [h.attr]

theorem reductionAxes (h : call.AtMost call') (rank : Nat) :
    call'.reductionAxes rank = call.reductionAxes rank := by
  unfold Call.reductionAxes
  simp only [h.attr, h.fail, h.axis]

/-! ## Families of operations -/

theorem mapAs (h : call.AtMost call') {dtype : DType → DType} {f f' : Float → Float} :
    Related Tensor.AtMost (call.mapAs dtype f) (call'.mapAs dtype f') :=
  (h.tensor 0).bind fun _ _ hx => kernel fun _ _ => Kernel.atMost_map hx

theorem pointwise (h : call.AtMost call') {f f' : Float → Float} :
    Related Tensor.AtMost (call.pointwise f) (call'.pointwise f') := h.mapAs

theorem binary (h : call.AtMost call') {f f' : Float → Float → Float} :
    Related Tensor.AtMost (call.binary f) (call'.binary f') :=
  (h.tensor 0).bind fun _ _ hlhs => h.right.bind fun _ _ hrhs => by
    cases hrhs with
    | inl hrhs => exact kernel fun _ _ => Kernel.atMost_binary hlhs hrhs
    | inr _ => exact kernel fun _ _ => Kernel.atMost_map hlhs

theorem divide (h : call.AtMost call') : Related Tensor.AtMost call.divide call'.divide :=
  (h.tensor 0).bind fun _ _ hlhs => h.right.bind fun _ _ hrhs => by
    cases hrhs with
    | inl hrhs => exact kernel fun _ _ => Kernel.atMost_binary hlhs hrhs
    | inr _ => exact kernel fun _ _ => Kernel.atMost_map hlhs

theorem clamp (h : call.AtMost call') : Related Tensor.AtMost call.clamp call'.clamp :=
  (Related.any _ _).bind fun _ _ _ => (Related.any _ _).bind fun _ _ _ => h.mapAs

theorem gelu (h : call.AtMost call') : Related Tensor.AtMost call.gelu call'.gelu := by
  unfold Call.gelu
  rw [h.attr]
  split
  · exact h.pointwise
  · split
    · exact h.pointwise
    · split
      · exact h.pointwise
      · exact .errorLeft

theorem linear (h : call.AtMost call') : Related Tensor.AtMost call.linear call'.linear := by
  refine (h.tensor 0).bind fun x x' hx => (h.tensor 1).bind fun weight weight' hweight => ?_
  rw [← hweight.rank_eq]
  split
  · exact .errorLeft
  · have hproduct : Related Tensor.AtMost
        (Kernel.permute weight [1, 0] >>= Kernel.matmul x)
        (Kernel.permute weight' [1, 0] >>= Kernel.matmul x') := by
      have hturned : Related Tensor.AtMost (Kernel.permute weight [1, 0])
          (Kernel.permute weight' [1, 0]) := fun _ _ => Kernel.atMost_permute hweight
      exact hturned.bind fun _ _ hw _ _ => Kernel.atMost_matmul hx hw
    refine (kernel hproduct).bind fun product product' hle => ?_
    have harg := h.arg? 2
    generalize call.arg? 2 = bias at harg ⊢
    generalize call'.arg? 2 = bias' at harg ⊢
    cases harg with
    | none => exact .ok hle
    | some hbias =>
      cases hbias with
      | tensor hbias => exact kernel fun _ _ => Kernel.atMost_binary hle hbias
      | scalar a b => exact .ok hle

theorem constantPad (h : call.AtMost call') :
    Related Tensor.AtMost call.constantPad call'.constantPad := by
  refine (h.counted 0).bind fun x x' ⟨hx, hsmall⟩ => .bind_of_eq (h.ints "pad") fun amounts => ?_
  refine (Related.any _ _).bind fun _ _ _ => ?_
  rw [← hx.rank_eq]
  split
  · exact .errorLeft
  · exact kernel fun _ _ => Kernel.atMost_pad hx hsmall

theorem transpose (h : call.AtMost call') :
    Related Tensor.AtMost call.transpose call'.transpose := by
  refine (h.tensor 0).bind fun x x' hx => .bind_of_eq (h.int "dim0") fun n => ?_
  rw [← hx.rank_eq]
  refine .bind_of_eq (h.axis n x.rank) fun a => .bind_of_eq (h.int "dim1") fun m => ?_
  refine .bind_of_eq (h.axis m x.rank) fun b => ?_
  exact kernel fun _ _ => Kernel.atMost_permute hx

theorem flatten (h : call.AtMost call') : Related Tensor.AtMost call.flatten call'.flatten := by
  refine (h.tensor 0).bind fun x x' hx => ?_
  simp only [← hx.rank_eq, h.attr]
  split
  · exact kernel fun _ _ => Kernel.atMost_reshape (List.forall₂_same.mpr fun n _ => Nat.le_refl n)
  · cases Kernel.axisIndex (((call.attr? "start_dim").bind Attr.int?).getD 0) x.rank with
    | error cause => exact .errorLeft
    | ok first =>
      cases Kernel.axisIndex (((call.attr? "end_dim").bind Attr.int?).getD (-1)) x.rank with
      | error cause => exact .errorLeft
      | ok last =>
        dsimp only
        split
        · exact kernel fun _ _ => Kernel.atMost_reshape (flattenedExtents_le hx first last)
        · exact .errorLeft

theorem reduce (h : call.AtMost call') (mean : Bool) :
    Related Tensor.AtMost (call.reduce mean) (call'.reduce mean) := by
  refine (h.tensor 0).bind fun x x' hx => ?_
  rw [← hx.rank_eq]
  refine .bind_of_eq (h.reductionAxes x.rank) fun named => ?_
  by_cases htype : (mean && !x.dtype.isFloat) = true
  · rw [if_pos htype]
    exact .errorLeft
  · by_cases htype' : (mean && !x'.dtype.isFloat) = true
    · rw [if_pos htype']
      exact .errorRight
    · rw [if_neg htype, if_neg htype', h.flag]
      refine (Related.any _ _).bind fun _ _ _ => ?_
      exact kernel fun _ _ => Kernel.atMost_reduce (hx.cast _ _)

theorem softmax (h : call.AtMost call') : Related Tensor.AtMost call.softmax call'.softmax :=
  (h.tensor 0).bind fun _ _ hx => (Related.any _ _).bind fun _ _ _ =>
    (Related.any _ _).bind fun _ _ _ => (Related.any _ _).bind fun _ _ _ =>
      kernel fun _ _ => Kernel.atMost_softmax hx

theorem cumsum (h : call.AtMost call') : Related Tensor.AtMost call.cumsum call'.cumsum :=
  (h.tensor 0).bind fun _ _ hx => (Related.any _ _).bind fun _ _ _ =>
    (Related.any _ _).bind fun _ _ _ => (Related.any _ _).bind fun _ _ _ =>
      kernel fun _ _ => Kernel.atMost_cumsum hx

/-! ## Results -/

theorem tensorResult (h : call.AtMost call') :
    Related Tensor.AtMost call.tensorResult call'.tensorResult := by
  unfold Call.tensorResult
  rw [h.node]
  cases call.node.kind with
  | relu | neg | abs => exact h.mapAs
  | sigmoid | tanh | silu | exp | log | sqrt | erf => exact h.pointwise
  | hardtanh =>
    exact (Related.any _ _).bind fun _ _ _ => (Related.any _ _).bind fun _ _ _ => h.pointwise
  | leakyRelu => exact (Related.any _ _).bind fun _ _ _ => h.pointwise
  | elu =>
    exact (Related.any _ _).bind fun _ _ _ => (Related.any _ _).bind fun _ _ _ =>
      (Related.any _ _).bind fun _ _ _ => h.pointwise
  | gelu => exact h.gelu
  | prelu =>
    refine (h.tensor 0).bind fun _ _ hx => (Related.any _ _).bind fun _ _ _ => ?_
    exact kernel fun _ _ => Kernel.atMost_prelu hx
  | add | sub => exact (Related.any _ _).bind fun _ _ _ => h.binary
  | mul | pow | maximum | minimum => exact h.binary
  | div => exact h.divide
  | clamp => exact h.clamp
  | matmul =>
    refine (h.tensor 0).bind fun _ _ hx => (h.tensor 1).bind fun _ _ hy => ?_
    exact kernel fun _ _ => Kernel.atMost_matmul hx hy
  | linear => exact h.linear
  | constantPad => exact h.constantPad
  | reshape =>
    refine (h.counted 0).bind fun x x' ⟨hx, hsmall⟩ => ?_
    refine .bind_of_eq (h.ints "shape") fun target => ?_
    have htarget : Related (List.Forall₂ (· ≤ ·)) (Kernel.resolveShape x.dims target false)
        (Kernel.resolveShape x'.dims target false) :=
      fun _ _ => Kernel.resolveShape_le hx (hsmall.trans (by decide))
    exact kernel (htarget.bind fun _ _ hle _ _ => Kernel.atMost_reshape hle)
  | permute =>
    refine (h.tensor 0).bind fun x x' hx => .bind_of_eq (h.ints "dims") fun dims => ?_
    have haxes : dims.mapM (call'.axis · x'.rank) = dims.mapM (call.axis · x.rank) := by
      simp only [h.axis, ← hx.rank_eq]
    exact .bind_of_eq haxes fun axes => kernel fun _ _ => Kernel.atMost_permute hx
  | transpose => exact h.transpose
  | flatten => exact h.flatten
  | softmax => exact h.softmax
  | sum | mean => exact h.reduce _
  | «to» =>
    exact (h.tensor 0).bind fun _ _ hx => (Related.any _ _).bind fun _ _ _ => .ok (hx.cast _ _)
  | dropout =>
    dsimp only
    rw [h.flag]
    split
    · exact .errorLeft
    · exact h.tensor 0
  | contiguous => exact h.tensor 0
  | cumsum => exact h.cumsum
  | constant | size | print | branch | loop | engineCall => exact .errorLeft

/-- Larger operands have larger results. -/
theorem results (h : call.AtMost call') :
    Related (List.Forall₂ Datum.AtMost) call.results call'.results := by
  have htensor : Related (List.Forall₂ Datum.AtMost)
      (call.tensorResult >>= fun t => pure [.tensor t])
      (call'.tensorResult >>= fun t => pure [.tensor t]) :=
    h.tensorResult.bind fun _ _ hle => .ok (.cons (.tensor hle) .nil)
  unfold Call.results
  rw [h.node]
  cases call.node.kind with
  | constant => exact .ok (.cons (.refl _) .nil)
  | size => exact (Related.any _ _).bind fun a b _ => .ok (.cons (.scalar a b) .nil)
  | print => exact .ok .nil
  | _ => exact htensor

end AtMost

/-- Attributes are read from the node and from the operands behind its tensors. -/
theorem attr?_congr {node : Node} {args args' : List Datum}
    (h : ∀ count, node.kind.tensorOperands? = some count → args'.drop count = args.drop count)
    (name : String) : (mk node args').attr? name = (mk node args).attr? name := by
  have hoperand : (mk node args').attrOperand? name = (mk node args).attrOperand? name := by
    cases hcount : node.kind.tensorOperands? with
    | none =>
      unfold attrOperand?
      simp only [hcount]
      rfl
    | some count =>
      rw [Folding.attrOperand?_eq hcount, Folding.attrOperand?_eq hcount, h count hcount]
  unfold attr?
  rw [hoperand]

end Reference.Call

/-! ## Two solutions -/

open Outcome Reference

namespace Bindings

/-- The elements of every tensor can be counted, extents of zero as one. -/
def Small (b : Bindings) : Prop :=
  ∀ v t, b.read v = .ok (.tensor t) → Inference.volume t.dims < 2 ^ 63

variable {b c : Bindings} {node : Node} {vs : List ValueId} {xs ys : List Datum} {v : ValueId}
  {r : Datum → Datum → Prop}

theorem related_of_mapM_read (hb : vs.mapM b.read = .ok xs) (hc : vs.mapM c.read = .ok ys)
    (h : List.Forall₂ r xs ys) (hv : v ∈ vs) : Related r (b.read v) (c.read v) := by
  induction vs generalizing xs ys with
  | nil => cases hv
  | cons w vs ih =>
    obtain ⟨x, xs, hx, hxs, rfl⟩ := mapM_cons_eq_ok.mp hb
    obtain ⟨y, ys, hy, hys, rfl⟩ := mapM_cons_eq_ok.mp hc
    obtain ⟨hle, hrest⟩ := List.forall₂_cons.mp h
    rcases List.mem_cons.mp hv with rfl | hv
    · rw [hx, hy]
      exact .ok hle
    · exact ih hxs hys hrest hv

theorem forall₂_of_related (hb : vs.mapM b.read = .ok xs) (hc : vs.mapM c.read = .ok ys)
    (h : ∀ v ∈ vs, Related r (b.read v) (c.read v)) : List.Forall₂ r xs ys :=
  forall₂_of_forall₂ (mapM_eq_ok.mp hb) (mapM_eq_ok.mp hc) h

theorem mapM_read_drop (h : vs.mapM b.read = .ok xs) (count : Nat) :
    (vs.drop count).mapM b.read = .ok (xs.drop count) :=
  mapM_eq_ok.mpr (List.forall₂_drop count (mapM_eq_ok.mp h))

/-- A constant is the same in all solutions. -/
theorem Solves.eq_of_constant (hb : b.Solves interpret node) (hc : c.Solves interpret node)
    (hkind : node.kind = .constant) (hv : v ∈ node.outputs) :
    Related (· = ·) (b.read v) (c.read v) := by
  have hresult : ∀ args results, interpret node args = .ok results →
      results = [Call.constantValue node] := by
    intro args results hresults
    unfold interpret Call.results at hresults
    rw [hkind] at hresults
    exact (Except.ok.inj hresults).symm
  obtain ⟨args, results, -, hresults, houtputs⟩ := hb
  obtain ⟨args', results', -, hresults', houtputs'⟩ := hc
  refine related_of_mapM_read houtputs houtputs' ?_ hv
  rw [hresult args results hresults, hresult args' results' hresults']
  exact List.forall₂_same.mpr fun _ _ => rfl

/-- A node that two solutions solve has results in the order of its operands, if its attributes are
the same in both. -/
theorem Solves.atMost (hb : b.Solves interpret node) (hc : c.Solves interpret node)
    (hsmall : c.Small)
    (hinputs : ∀ v ∈ node.inputs, Related Datum.AtMost (b.read v) (c.read v))
    (hattrs : ∀ count, node.kind.tensorOperands? = some count → ∀ v ∈ node.inputs.drop count,
      Related (· = ·) (b.read v) (c.read v))
    (hv : v ∈ node.outputs) : Related Datum.AtMost (b.read v) (c.read v) := by
  obtain ⟨args, results, hargs, hresults, houtputs⟩ := hb
  obtain ⟨args', results', hargs', hresults', houtputs'⟩ := hc
  have hcalls : (Call.mk node args).AtMost (Call.mk node args') :=
    { node := rfl
      args := forall₂_of_related hargs hargs' hinputs
      small := fun t ht => by
        obtain ⟨w, -, hw⟩ := exists_of_forall₂ (mapM_eq_ok.mp hargs').flip ht
        exact hsmall w t hw
      attr := Call.attr?_congr fun count hcount => by
        have hdrop := forall₂_of_related (mapM_read_drop hargs count)
          (mapM_read_drop hargs' count) (hattrs count hcount)
        exact (List.forall₂_eq_eq_eq ▸ hdrop).symm }
  exact related_of_mapM_read houtputs houtputs' (hcalls.results results results' hresults hresults')
    hv

end Bindings

namespace Graph

variable {g : Graph} {arena : Nat} {inputs : List ValueId} {nodes : List Node} {b c : Bindings}

/-- Every operand that carries an attribute is a constant. -/
def ConstantAttributes (g : Graph) : Prop :=
  ∀ node ∈ g.nodes, ∀ count, node.kind.tensorOperands? = some count →
    ∀ v ∈ node.inputs.drop count, ∃ source ∈ g.nodes, source.kind = .constant ∧ v ∈ source.outputs

/-- From node to node the values of a solution stay at most those of another one. -/
theorem atMost_of_solvesBound (horder : InOrder arena inputs nodes)
    (hb : b.SolvesBound interpret nodes) (hc : c.SolvesBound interpret nodes) (hsmall : c.Small)
    (hinputs : ∀ v ∈ inputs, Related Datum.AtMost (b.read v) (c.read v))
    (hattrs : ∀ node ∈ nodes, ∀ count, node.kind.tensorOperands? = some count →
      ∀ v ∈ node.inputs.drop count, Related (· = ·) (b.read v) (c.read v)) :
    ∀ v ∈ definedBy inputs nodes, Related Datum.AtMost (b.read v) (c.read v) := by
  induction nodes using List.reverseRecOn with
  | nil =>
    intro v hv
    exact hinputs v (by simpa [definedBy] using hv)
  | append_singleton nodes last ih =>
    obtain ⟨hnodes, hlast⟩ := inOrder_concat.mp horder
    have hmem : last ∈ nodes ++ [last] := List.mem_append_right _ List.mem_cons_self
    have hbefore := ih hnodes (fun node hn => hb node (List.mem_append_left _ hn))
      (fun node hn => hc node (List.mem_append_left _ hn))
      (fun node hn => hattrs node (List.mem_append_left _ hn))
    intro v hv x y hx hy
    rw [definedBy_append, List.flatMap_singleton, List.mem_append] at hv
    -- a bound result of the last node shows that both runs came to it
    rcases hv with hv | hv
    · exact hbefore v hv x y hx hy
    · exact (hb last hmem v hv x hx).atMost (hc last hmem v hv y hy) hsmall
        (fun w hw => hbefore w (hlast.reads w hw)) (hattrs last hmem) hv x y hx hy

/-- Constants are the same in all runs. -/
theorem eq_of_constantAttributes (hg : g.ConstantAttributes) (hb : b.SolvesBound interpret g.nodes)
    (hc : c.SolvesBound interpret g.nodes) : ∀ node ∈ g.nodes, ∀ count,
      node.kind.tensorOperands? = some count → ∀ v ∈ node.inputs.drop count,
        Related (· = ·) (b.read v) (c.read v) := by
  intro node hn count hcount v hv x y hx hy
  obtain ⟨source, hsource, hkind, hout⟩ := hg node hn count hcount v hv
  exact (hb source hsource v hout x hx).eq_of_constant (hc source hsource v hout y hy) hkind hout
    x y hx hy

/-- Whatever two runs bind is in the order of their inputs. -/
theorem atMost_trace {ts ts' : List Tensor} (hg : g.SingleAssignment)
    (hattrs : g.ConstantAttributes) (hle : List.Forall₂ Tensor.AtMost ts ts')
    (hsmall : (g.trace interpret ts').Small) (v : ValueId) :
    Related Datum.AtMost ((g.trace interpret ts).read v) ((g.trace interpret ts').read v) := by
  intro x y hx hy
  have hb := solvesBound_trace hg interpret ts
  have hc := solvesBound_trace hg interpret ts'
  have hinputs : ∀ v ∈ g.inputs,
      Related Datum.AtMost ((g.trace interpret ts).read v) ((g.trace interpret ts').read v) := by
    intro w hw
    rcases mapM_read_trace hg interpret ts with hnone | hstart
    · rw [hnone]
      exact .errorLeft
    · rcases mapM_read_trace hg interpret ts' with hnone | hstart'
      · rw [hnone]
        exact .errorRight
      · refine Bindings.related_of_mapM_read hstart hstart' ?_ hw
        rw [List.forall₂_map_left_iff, List.forall₂_map_right_iff]
        exact hle.imp fun _ _ => .tensor
  have hconstants := eq_of_constantAttributes hattrs hb hc
  exact atMost_of_solvesBound hg.nodes hb hc hsmall hinputs hconstants v
    (mem_definedBy_of_read hx) x y hx hy

end Graph

end HybridGraph
