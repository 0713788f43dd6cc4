import HybridGraph.Lowering.Pipeline
import HybridGraph.Proofs.Lowering.GatedFunctions
import HybridGraph.Proofs.Lowering.SameRun
/-!
# Decomposing linear maps in a run

A decomposition adds values to a graph.  A run of the graph, extended by what the added nodes
compute, is a run of the new graph (`Decomposition.Replaces.runsAs`), so the new graph gives what
the old one gave.  For linear maps this takes a bias that does not widen the element type of the
product: the map adds its bias in that element type, a sum in the wider one of the two.

    g.verify = .ok () → … → (∀ b : Float, 1.0 * 1.0 * b = b) →
      g.run interpret inputs = .ok outs →
      (Pass.linear.run options g).1.run interpret inputs = .ok outs       (Graph.run_linear_exact)
-/

namespace HybridGraph

open Reference

/-! ## Runs of graphs with more values -/

/-- The bindings of a run of a graph, extended to a graph with more values that gives and prints the
same. -/
structure Graph.RunsAs (g : Graph) (bound : Bindings) (g' : Graph) (bound' : Bindings) : Prop where
  solved : g'.SolvedBy interpret bound'
  grows : g.Grows g'
  inputs : g'.inputs = g.inputs
  reads : ∀ v : ValueId, v.index < g.values.size → bound'.read v = bound.read v
  outputs : g'.outputs.mapM bound'.read = g.outputs.mapM bound.read
  printed : g'.nodes.flatMap (Node.printed · bound') = g.nodes.flatMap (Node.printed · bound)

namespace Graph

variable {g g' g'' : Graph} {bound bound' bound'' : Bindings}

theorem RunsAs.refl (h : g.SolvedBy interpret bound) : g.RunsAs bound g bound :=
  ⟨h, .of_eq rfl, rfl, fun _ _ => rfl, rfl, rfl⟩

theorem RunsAs.trans (h : g.RunsAs bound g' bound') (h' : g'.RunsAs bound' g'' bound'') :
    g.RunsAs bound g'' bound'' where
  solved := h'.solved
  grows := h.grows.trans h'.grows
  inputs := h'.inputs.trans h.inputs
  reads v hv := (h'.reads v (Nat.lt_of_lt_of_le hv h.grows.size_le)).trans (h.reads v hv)
  outputs := h'.outputs.trans h.outputs
  printed := h'.printed.trans h.printed

/-- The graph with more values runs alike. -/
theorem RunsAs.run {inputs outs : List Tensor} {start : Bindings} {values : List Datum}
    (h : g.RunsAs bound g' bound') (hg : g.SolvedBy interpret bound)
    (hstart : g.bindInputs inputs = .ok start) (hagree : Bindings.Agree g.inputs start bound)
    (hvalues : g.outputs.mapM bound.read = .ok values)
    (houts : values.mapM Datum.toTensor = .ok outs) :
    g'.run interpret inputs = .ok outs ∧
      g'.printed interpret inputs = g.printed interpret inputs := by
  obtain ⟨-, hprinted⟩ := hg.run hstart hagree hvalues houts
  have hstart' : g'.bindInputs inputs = .ok start := by
    obtain ⟨hlength, hchecks, hbind⟩ := bindInputs_eq_ok.mp hstart
    rw [← h.inputs] at hlength hchecks hbind
    refine bindInputs_eq_ok.mpr ⟨hlength, fun entry hentry => ?_, hbind⟩
    have hmem : entry.1.1 ∈ g.inputs := by
      rw [← h.inputs]
      exact (List.of_mem_zip (List.fst_mem_of_mem_zipIdx hentry)).1
    have hcheck := hchecks entry hentry
    unfold checkInput at hcheck ⊢
    rw [h.grows.tensorType? (hg.form.known _ hmem)]
    exact hcheck
  have hagree' : Bindings.Agree g'.inputs start bound' := by
    intro v hv
    rw [h.inputs] at hv
    rw [hagree v hv, h.reads v (hg.form.known v hv)]
  rw [← h.outputs] at hvalues
  obtain ⟨hrun, hprinted'⟩ := h.solved.run hstart' hagree' hvalues houts
  exact ⟨hrun, by rw [hprinted', hprinted, h.printed]⟩

end Graph

/-! ## Replacing a node in a run -/

namespace Decomposition

open Expansion

variable {g g' : Graph} {node : Node} {added : List Node} {last : Nat} {bound : Bindings}

/-- Bindings with the values that an expansion defines. -/
def withMade (g : Graph) (bound : Bindings) (values : List Datum) : Bindings :=
  bound.extend ((List.range values.length).map (madeValue g)) values

theorem read_withMade_of_lt {values : List Datum} {v : ValueId} (hv : v.index < g.values.size) :
    (withMade g bound values).read v = bound.read v := by
  refine Bindings.read_extend_of_notMem fun hmem => ?_
  obtain ⟨number, -, rfl⟩ := List.mem_map.mp hmem
  exact absurd hv (Nat.not_lt.mpr (Nat.le_add_right _ number))

theorem read_withMade {values : List Datum} {number : Nat} {x : Datum}
    (hx : values[number]? = some x) :
    (withMade g bound values).read (madeValue g number) = .ok x := by
  have hnodup : ((List.range values.length).map (madeValue g)).Nodup := by
    refine List.nodup_range.map fun i j h => ?_
    exact Nat.add_left_cancel (ValueId.mk.inj h)
  have hlength : values.length = ((List.range values.length).map (madeValue g)).length := by simp
  have hall := Outcome.mapM_eq_ok.mp (Bindings.mapM_read_extend (b := bound) hnodup hlength)
  obtain ⟨hlt, rfl⟩ := List.getElem?_eq_some_iff.mp hx
  unfold withMade
  simpa using hall.get (show number < _ by simpa using hlt) hlt

/-- The nodes of the old graph read and define what they did. -/
theorem agree_withMade {values : List Datum} (h : g.SingleAssignment) {n : Node}
    (hn : n ∈ g.nodes) :
    Bindings.Agree (n.inputs ++ n.outputs) (withMade g bound values) bound :=
  fun _ hv => read_withMade_of_lt (h.index_lt (Graph.subset_definedBy h.nodes hn hv))

section

variable {values : List Datum} {result : Datum} (hreplaces : Replaces g node added last g')
  (h : g.SolvedBy interpret bound) (hresult : ∀ out ∈ node.outputs, bound.read out = .ok result)
  (hlast : values[last]? = some result)
include hreplaces h hresult hlast

/-- Who reads the last added value instead of the result of the replaced node reads the same. -/
theorem Replaces.exists_split : ∃ before after out, g.nodes = before ++ node :: after ∧
    node.outputs = [out] ∧
    g'.nodes = before ++ added ++ after.map (Node.replaceInput out (madeValue g last)) ∧
    (withMade g bound values).read (madeValue g last) = (withMade g bound values).read out := by
  obtain ⟨before, after, out, hsplit, hout, hnodes⟩ := hreplaces.nodes
  have hmem : out ∈ node.outputs := hout ▸ List.mem_cons_self
  have hindex : out.index < g.values.size := h.form.index_lt
    (mem_definedBy.mpr (.inr ⟨node, hsplit ▸ List.mem_append_right _ List.mem_cons_self, hmem⟩))
  refine ⟨before, after, out, hsplit, hout, hnodes, ?_⟩
  rw [read_withMade hlast, read_withMade_of_lt hindex, hresult out hmem]

/-- A node of the new graph is an added one, or it reads what a node of the old graph of its kind
reads. -/
theorem Replaces.old_or_added : ∀ n ∈ g'.nodes, n ∈ added ∨
    ∃ m ∈ g.nodes, n.kind = m.kind ∧ (withMade g bound values).Solves interpret n ∧
      n.inputs.mapM (withMade g bound values).read = m.inputs.mapM bound.read := by
  obtain ⟨before, after, out, hsplit, -, hnodes, hsame⟩ :=
    hreplaces.exists_split h hresult hlast
  have hkept : ∀ n ∈ g.nodes, (withMade g bound values).Solves interpret n ∧
      n.inputs.mapM (withMade g bound values).read = n.inputs.mapM bound.read := fun n hn =>
    ⟨(h.nodes n hn).of_agree (agree_withMade h.form hn),
      (agree_withMade h.form hn).mapM_read (List.subset_append_left _ _)⟩
  intro n hn
  rw [hnodes, List.mem_append, List.mem_append, List.mem_map] at hn
  rcases hn with (hn | hn) | ⟨m, hm, rfl⟩
  · have hold : n ∈ g.nodes := hsplit ▸ List.mem_append_left _ hn
    exact .inr ⟨n, hold, rfl, hkept n hold⟩
  · exact .inl hn
  · have hold : m ∈ g.nodes := hsplit ▸ List.mem_append_right _ (List.mem_cons_of_mem _ hm)
    refine .inr ⟨m, hold, rfl, (hkept m hold).1.replaceInput hsame, ?_⟩
    exact (Bindings.mapM_read_replace hsame m.inputs).trans (hkept m hold).2

/-- If the added nodes compute the values that they define, and the last one is what the replaced
node computed, the new graph runs as the old one. -/
theorem Replaces.runsAs (hprint : node.kind ≠ .print)
    (hadded : ∀ n ∈ added, (withMade g bound values).Solves interpret n ∧ n.kind ≠ .print) :
    g.RunsAs bound g' (withMade g bound values) := by
  obtain ⟨before, after, out, hsplit, hout, hnodes, hsame⟩ :=
    hreplaces.exists_split h hresult hlast
  refine ⟨⟨hreplaces.extends.wellFormed.form, fun n hn => ?_⟩, hreplaces.grows,
    hreplaces.extends.inputs, fun v hv => read_withMade_of_lt hv, ?_, ?_⟩
  · rcases hreplaces.old_or_added h hresult hlast n hn with hn | ⟨_, -, -, hsolves, -⟩
    · exact (hadded n hn).1
    · exact hsolves
  · rw [hreplaces.outputs hout, Bindings.mapM_read_replace hsame]
    exact Bindings.Agree.mapM_read
      (fun v hv => read_withMade_of_lt (h.form.index_lt (h.form.outputs v hv)))
      (List.Subset.refl _)
  · have hkept : ∀ n ∈ g.nodes, n.printed (withMade g bound values) = n.printed bound :=
      fun n hn => Node.printed_congr
        ((agree_withMade h.form hn).mapM_read (List.subset_append_left _ _))
    have hfront : before.flatMap (Node.printed · (withMade g bound values)) =
        before.flatMap (Node.printed · bound) :=
      List.flatMap_congr fun n hn => hkept n (hsplit ▸ List.mem_append_left _ hn)
    have hnone : added.flatMap (Node.printed · (withMade g bound values)) = [] :=
      List.flatMap_eq_nil_iff.mpr fun n hn => if_neg (hadded n hn).2
    have hback : (after.map (Node.replaceInput out (madeValue g last))).flatMap
        (Node.printed · (withMade g bound values)) = after.flatMap (Node.printed · bound) :=
      (List.flatMap_map _ _ after).trans (List.flatMap_congr fun n hn =>
        (Node.printed_replaceInput hsame).trans
          (hkept n (hsplit ▸ List.mem_append_right _ (List.mem_cons_of_mem _ hn))))
    have hnode : node.printed bound = [] := if_neg hprint
    rw [hnodes, hsplit, List.flatMap_append, List.flatMap_append, List.flatMap_append,
      List.flatMap_cons, hfront, hnone, hback, hnode, List.append_nil, List.nil_append]

end

/-! ## Linear maps -/

/-- What the linear maps of a graph find in a run: declared tensors are tensors, and no bias widens
the element type of its product. -/
structure Fits (g : Graph) (bound : Bindings) : Prop where
  tensors : ∀ v x, g.isTensor v = true → bound.read v = .ok x → ∃ t, x = .tensor t
  biases : ∀ node ∈ g.nodes, node.kind = .linear → ∀ x weight bias : Tensor,
    node.inputs.mapM bound.read = .ok [.tensor x, .tensor weight, .tensor bias] →
      Kernel.promote (Kernel.promote x.dtype weight.dtype) bias.dtype =
        Kernel.promote x.dtype weight.dtype

/-- A linear map computes a product with the permuted weight, and adds a bias that is a tensor. -/
theorem exists_product {x weight : Datum} {rest : List Datum} {t : Tensor}
    (h : (Call.mk node (x :: weight :: rest)).linear = .ok t) :
    ∃ tx tw permuted product, x = .tensor tx ∧ weight = .tensor tw ∧ tw.rank = 2 ∧
      Kernel.permute tw [1, 0] = .ok permuted ∧ Kernel.matmul tx permuted = .ok product ∧
      (rest = [] → product = t) ∧
      ∀ bias, rest = [.tensor bias] → Kernel.binary product bias product.dtype (· + ·) = .ok t := by
  have hoperand : ∀ {i y u}, (Call.mk node (x :: weight :: rest)).arg? i = some y →
      (Call.mk node (x :: weight :: rest)).tensor i = .ok u → y = .tensor u := by
    intro i y u hy hu
    unfold Call.tensor at hu
    rw [hy] at hu
    cases y with
    | tensor v => rw [Except.ok.inj hu]
    | scalar a => cases hu
  obtain ⟨tx, hx, h⟩ := Outcome.bind_eq_ok.mp h
  obtain ⟨tw, hw, h⟩ := Outcome.bind_eq_ok.mp h
  split at h
  · cases h
  · next hrank =>
    obtain ⟨product, hproduct, h⟩ := Outcome.bind_eq_ok.mp h
    obtain ⟨permuted, hpermuted, hproduct⟩ :=
      Outcome.bind_eq_ok.mp (Call.kernel_eq_ok.mp hproduct)
    refine ⟨tx, tw, permuted, product, hoperand rfl hx, hoperand rfl hw, not_not.mp hrank,
      hpermuted, hproduct, ?_, ?_⟩
    · rintro rfl
      exact Outcome.pure_eq_ok.mp h
    · rintro bias rfl
      exact Call.kernel_eq_ok.mp h

section

variable {scope : Option String} {number : Nat} {args : List ValueId}
  {tx tw permuted product bias : Tensor}

/-- The emitted permutation exchanges the axes of a matrix. -/
theorem interpret_permute (hrank : tw.rank = 2) (h : Kernel.permute tw [1, 0] = .ok permuted) :
    interpret (made g scope number .permute args (.ofList [("dims", .ints [1, 0])])) [.tensor tw] =
      .ok [.tensor permuted] := by
  refine Call.results_of_tensorResult ?_
  have haxes : ([1, 0] : List Int).mapM (Call.axis (Call.mk (made g scope number .permute args
      (.ofList [("dims", .ints [1, 0])])) [.tensor tw]) · tw.rank) = .ok [1, 0] := by
    rw [hrank]
    rfl
  show (([1, 0] : List Int).mapM (Call.axis _ · tw.rank) >>= fun axes =>
    Call.kernel _ (Kernel.permute tw axes)) = _
  rw [haxes]
  exact Call.kernel_eq_ok.mpr h

/-- The emitted product multiplies its operands. -/
theorem interpret_matmul (h : Kernel.matmul tx permuted = .ok product) :
    interpret (made g scope number .matmul args .empty) [.tensor tx, .tensor permuted] =
      .ok [.tensor product] :=
  Call.results_of_tensorResult (Call.kernel_eq_ok.mpr h)

/-- The emitted sum adds a bias that does not widen the element type of the product. -/
theorem interpret_plainSum (hone : ∀ b : Float, 1.0 * 1.0 * b = b) {t : Tensor}
    (hwide : Kernel.promote product.dtype bias.dtype = product.dtype)
    (h : Kernel.binary product bias product.dtype (· + ·) = .ok t) :
    interpret (made g scope number .add args plainSum) [.tensor product, .tensor bias] =
      .ok [.tensor t] := by
  refine Call.results_of_tensorResult ?_
  rw [Call.tensorResult_eq_binary (binary?_plainSum .double)]
  have hsum : (fun a b : Float => a + Scalars.double.literal 1.0 * Scalars.double.literal 1.0 * b) =
      (· + ·) := by
    funext a b
    exact congrArg (a + ·) (hone b)
  rw [hsum]
  refine Call.kernel_eq_ok.mpr ?_
  rw [hwide]
  exact h

end

/-- An added node computes the value that it defines. -/
theorem solves_made {values args : List Datum} {scope : Option String} {number : Nat}
    {kind : OpKind} {vs : List ValueId} {attrs : AttrList} {x : Datum}
    (hargs : vs.mapM (withMade g bound values).read = .ok args)
    (hrun : interpret (made g scope number kind vs attrs) args = .ok [x])
    (hx : values[number]? = some x) :
    (withMade g bound values).Solves interpret (made g scope number kind vs attrs) :=
  ⟨args, [x], hargs, hrun, Outcome.mapM_cons_eq_ok.mpr ⟨x, [], read_withMade hx, rfl, rfl⟩⟩

/-- What fits a run fits it after a replacement by nodes that are no linear maps. -/
theorem Fits.of_replaces {tensors : List Tensor} {t : Tensor} (hfits : Fits g bound)
    (hreplaces : Replaces g node added last g') (h : g.SolvedBy interpret bound)
    (hresult : ∀ out ∈ node.outputs, bound.read out = .ok (.tensor t))
    (hlast : tensors[last]? = some t) (hlength : added.length = tensors.length)
    (hadded : ∀ n ∈ added, n.kind ≠ .linear) :
    Fits g' (withMade g bound (tensors.map .tensor)) where
  tensors := by
    intro v x htensor hread
    by_cases hv : v.index < g.values.size
    · rw [read_withMade_of_lt hv] at hread
      rw [hreplaces.grows.isTensor hv] at htensor
      exact hfits.tensors v x htensor hread
    · have hknown := Graph.index_lt_of_isTensor htensor
      rw [hreplaces.size, hlength] at hknown
      obtain ⟨number, hnumber⟩ := Nat.exists_eq_add_of_le (Nat.le_of_not_lt hv)
      obtain rfl : v = madeValue g number := congrArg ValueId.mk hnumber
      have hlt : number < tensors.length := Nat.lt_of_add_lt_add_left (hnumber ▸ hknown)
      refine ⟨tensors[number], Except.ok.inj (hread.symm.trans (read_withMade ?_))⟩
      rw [List.getElem?_map, List.getElem?_eq_getElem hlt]
      rfl
  biases := by
    intro n hn hkind x weight bias hargs
    have hlast' : (tensors.map Datum.tensor)[last]? = some (.tensor t) := by
      rw [List.getElem?_map, hlast]
      rfl
    rcases hreplaces.old_or_added h hresult hlast' n hn with hn | ⟨m, hm, hsame, -, hreads⟩
    · exact absurd hkind (hadded n hn)
    · exact hfits.biases m hm (hsame ▸ hkind) x weight bias (hreads ▸ hargs)

/-- What the first two of the nodes compute that replace a linear map. -/
theorem solves_product {x weight : ValueId} {tx tw permuted product : Tensor}
    {tensors : List Tensor} (h : g.SolvedBy interpret bound) (hn : node ∈ g.nodes)
    (hinputs : [x, weight] ⊆ node.inputs) (hx : bound.read x = .ok (.tensor tx))
    (hweight : bound.read weight = .ok (.tensor tw)) (hrank : tw.rank = 2)
    (hpermuted : Kernel.permute tw [1, 0] = .ok permuted)
    (hproduct : Kernel.matmul tx permuted = .ok product) (hfirst : tensors[0]? = some permuted)
    (hsecond : tensors[1]? = some product) :
    ∀ n ∈ linearNodes g node.scope x weight none,
      (withMade g bound (tensors.map .tensor)).Solves interpret n := by
  have hread : ∀ v ∈ [x, weight], (withMade g bound (tensors.map .tensor)).read v =
      bound.read v := fun v hv =>
    agree_withMade h.form hn v (List.mem_append_left _ (hinputs hv))
  have hpermuted' : (tensors.map Datum.tensor)[0]? = some (.tensor permuted) := by
    rw [List.getElem?_map, hfirst]
    rfl
  have hproduct' : (tensors.map Datum.tensor)[1]? = some (.tensor product) := by
    rw [List.getElem?_map, hsecond]
    rfl
  have hx' := (hread x (by simp)).trans hx
  have hweight' := (hread weight (by simp)).trans hweight
  intro n hn
  rcases List.mem_pair.mp hn with rfl | rfl
  · refine solves_made (Outcome.mapM_cons_eq_ok.mpr ⟨_, [], hweight', rfl, rfl⟩)
      (interpret_permute hrank hpermuted) hpermuted'
  · refine solves_made (Outcome.mapM_cons_eq_ok.mpr ⟨_, _, hx', Outcome.mapM_cons_eq_ok.mpr
      ⟨_, [], read_withMade hpermuted', rfl, rfl⟩, rfl⟩) (interpret_matmul hproduct) hproduct'

theorem kind_of_linearNodes {scope : Option String} {x weight : ValueId} {bias? : Option ValueId} :
    ∀ n ∈ linearNodes g scope x weight bias?, n.kind ≠ .print ∧ n.kind ≠ .linear := by
  cases bias? <;> simp [linearNodes]

/-- What a linear map computes in a run. -/
theorem exists_linear (hsolved : g.SolvedBy interpret bound) (hn : node ∈ g.nodes)
    (hkind : node.kind = .linear) : ∃ args t, node.inputs.mapM bound.read = .ok args ∧
      (Call.mk node args).linear = .ok t ∧
      ∀ out ∈ node.outputs, bound.read out = .ok (.tensor t) := by
  obtain ⟨args, results, hargs, hresults, houtputs⟩ := hsolved.nodes node hn
  obtain ⟨t, ht, rfl⟩ := (Call.results_eq_ok
    (show node.kind ≠ .constant by rw [hkind]; exact OpKind.noConfusion)
    (show node.kind ≠ .size by rw [hkind]; exact OpKind.noConfusion)
    (show node.kind ≠ .print by rw [hkind]; exact OpKind.noConfusion)).mp hresults
  rw [Call.tensorResult, hkind] at ht
  refine ⟨args, t, hargs, ht, fun out hout => ?_⟩
  obtain ⟨v, rest, hread, hrest, houtputs⟩ :=
    List.forall₂_cons_right_iff.mp (Outcome.mapM_eq_ok.mp houtputs)
  rw [houtputs, List.forall₂_nil_right_iff.mp hrest, List.mem_singleton] at hout
  exact hout ▸ hread

/-- If the nodes that replace a linear map compute tensors, and the last one is what the map
computed, the run goes on. -/
theorem Fits.exists_runsAs {t : Tensor} {x weight : ValueId} {bias? : Option ValueId}
    (hfits : Fits g bound) (tensors : List Tensor)
    (hreplaces : Replaces g node (linearNodes g node.scope x weight bias?) last g')
    (h : g.SolvedBy interpret bound) (hkind : node.kind = .linear)
    (hresult : ∀ out ∈ node.outputs, bound.read out = .ok (.tensor t))
    (hlast : tensors[last]? = some t)
    (hlength : (linearNodes g node.scope x weight bias?).length = tensors.length)
    (hsolves : ∀ n ∈ linearNodes g node.scope x weight bias?,
      (withMade g bound (tensors.map .tensor)).Solves interpret n) :
    ∃ bound', g.RunsAs bound g' bound' ∧ Fits g' bound' := by
  have hlast' : (tensors.map Datum.tensor)[last]? = some (.tensor t) := by
    rw [List.getElem?_map, hlast]
    rfl
  refine ⟨_, hreplaces.runsAs h hresult hlast' ?_ fun n hn => ?_,
    hfits.of_replaces hreplaces h hresult hlast hlength fun n hn => (kind_of_linearNodes n hn).2⟩
  · rw [hkind]
    exact OpKind.noConfusion
  · exact ⟨hsolves n hn, (kind_of_linearNodes n hn).1⟩

/-- A linear map that fits a run is replaced by nodes that give the same result. -/
theorem exists_runsAs_linear (hone : ∀ b : Float, 1.0 * 1.0 * b = b) (h : g.WellFormed)
    (hsolved : g.SolvedBy interpret bound) (hfits : Fits g bound) (hn : node ∈ g.nodes)
    (hkind : node.kind = .linear) (hroom : g.nextNode + node.kind.demand < 2 ^ 32)
    (hv : linear g node = .replaced g') :
    ∃ bound', g.RunsAs bound g' bound' ∧ Fits g' bound' := by
  obtain ⟨x, weight, bias?, hinputs, htensors, hreplaces⟩ := replaces_of_linear h hn hkind hroom hv
  obtain ⟨args, t, hargs, hlinear, hresult⟩ := exists_linear hsolved hn hkind
  have hall := hargs
  rw [hinputs] at hargs
  obtain ⟨dx, _, hx, hargs', rfl⟩ := Outcome.mapM_cons_eq_ok.mp hargs
  obtain ⟨dw, rest, hweight, hrest, rfl⟩ := Outcome.mapM_cons_eq_ok.mp hargs'
  obtain ⟨tx, tw, permuted, product, rfl, rfl, hrank, hpermuted, hproduct, hplain, hbiased⟩ :=
    exists_product hlinear
  have hfirst : ∀ tensors : List Tensor, tensors[0]? = some permuted →
      tensors[1]? = some product → ∀ n ∈ linearNodes g node.scope x weight none,
        (withMade g bound (tensors.map .tensor)).Solves interpret n := fun _ =>
    solves_product hsolved hn (by simp [hinputs]) hx hweight hrank hpermuted hproduct
  cases bias? with
  | none =>
    obtain rfl := Outcome.pure_eq_ok.mp hrest
    obtain rfl := hplain rfl
    exact hfits.exists_runsAs [permuted, product] hreplaces hsolved hkind hresult rfl rfl
      (hfirst _ rfl rfl)
  | some bias =>
    obtain ⟨db, _, hbias, hnil, rfl⟩ := Outcome.mapM_cons_eq_ok.mp hrest
    obtain rfl := Outcome.pure_eq_ok.mp hnil
    obtain ⟨tb, rfl⟩ := hfits.tensors bias db (htensors bias (by simp [hinputs])) hbias
    have hwide : Kernel.promote product.dtype tb.dtype = product.dtype := by
      rw [Kernel.dtype_of_matmul hproduct, Kernel.dtype_of_permute hpermuted]
      exact hfits.biases node hn hkind tx tw tb hall
    have hread : (withMade g bound ([permuted, product, t].map .tensor)).read bias =
        .ok (.tensor tb) := by
      rw [← hbias]
      exact agree_withMade hsolved.form hn bias (by simp [hinputs])
    refine hfits.exists_runsAs [permuted, product, t] hreplaces hsolved hkind hresult rfl rfl
      fun n hn => ?_
    rcases List.mem_append.mp hn with hn | hn
    · exact hfirst _ rfl rfl n hn
    · obtain rfl := List.mem_singleton.mp hn
      exact solves_made (Outcome.mapM_cons_eq_ok.mpr ⟨_, _, read_withMade rfl,
        Outcome.mapM_cons_eq_ok.mpr ⟨_, [], hread, rfl, rfl⟩, rfl⟩)
        (interpret_plainSum hone hwide (hbiased tb rfl)) rfl

end Decomposition

/-! ## Top theorem -/

/-- Replacing linear maps keeps every successful run in which no bias widens the element type of its
product, as long as there are ids for the new nodes. -/
theorem Graph.run_linear_exact {options : LoweringOptions} {g : Graph} (hg : g.verify = .ok ())
    (hids : ∀ node ∈ g.nodes, node.id.number < g.nextNode)
    (hroom : g.nextNode + g.demand < 2 ^ 32)
    (hone : ∀ b : Float, 1.0 * 1.0 * b = b) {inputs outs : List Tensor}
    (hfits : ∀ bound values, g.execute interpret inputs = .ok (bound, values) →
      Decomposition.Fits g bound)
    (hrun : g.run interpret inputs = .ok outs) :
    (Pass.linear.run options g).1.run interpret inputs = .ok outs ∧
      (Pass.linear.run options g).1.printed interpret inputs = g.printed interpret inputs := by
  have h : g.Ready := ⟨Graph.wellFormed_iff.mpr ⟨hg, hids⟩, hroom⟩
  obtain ⟨start, bound, values, hstart, hagree, hsolved, hexecute, hvalues, houts⟩ :=
    exists_solvedBy h.form hrun
  obtain ⟨bound', hruns, -⟩ := Decomposition.Decomposes.linear.visitKind_induction Pass.linear.name
    (p := fun g' => ∃ bound', g.RunsAs bound g' bound' ∧ Decomposition.Fits g' bound')
    (fun hready ⟨bound₁, hruns, hfits₁⟩ hn hkind hv _ => by
      obtain ⟨bound₂, hstep, hfits₂⟩ := Decomposition.exists_runsAs_linear hone
        hready.toWellFormed hruns.solved hfits₁ hn hkind (hready.room_of_mem hn) hv
      exact ⟨bound₂, hruns.trans hstep, hfits₂⟩)
    h ⟨bound, .refl hsolved, hfits bound values hexecute⟩
  exact hruns.run hsolved hstart hagree hvalues houts

end HybridGraph
