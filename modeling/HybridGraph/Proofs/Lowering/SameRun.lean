import HybridGraph.Execute.Interpreter
import HybridGraph.Proofs.Execute.Solution
import HybridGraph.Proofs.Lowering.Preservation
/-!
# Changing a graph under a run

A run of a graph binds values.  If these bindings solve the nodes of a changed graph too, its
outputs have the values that the outputs had, and its print nodes are given what they were given,
then the changed graph runs with the same outcome on the same inputs (`Graph.SameRun.run`):

    g.SameRun step bound g' → g'.run step inputs = .ok outs ∧
      g'.printed step inputs = g.printed step inputs

Three changes are of this kind: changing nodes into nodes that compute the same (`SameRun.map`),
dropping nodes that print nothing (`SameRun.filter`), and retiring a node in favour of a value equal
to its result (`SameRun.retire`).
-/

namespace HybridGraph

/-- The bindings of a run of one graph fit another graph. -/
structure Graph.SameRun (g : Graph) (step : Interpreter) (bound : Bindings) (g' : Graph) :
    Prop where
  solved : g'.SolvedBy step bound
  values : g'.values = g.values
  inputs : g'.inputs = g.inputs
  outputs : g'.outputs.mapM bound.read = g.outputs.mapM bound.read
  printed : g'.nodes.flatMap (Node.printed · bound) = g.nodes.flatMap (Node.printed · bound)

namespace Graph

variable {g g' g'' : Graph} {step : Interpreter} {bound : Bindings}

theorem SameRun.refl (h : g.SolvedBy step bound) : g.SameRun step bound g := ⟨h, rfl, rfl, rfl, rfl⟩

theorem SameRun.trans (h : g.SameRun step bound g') (h' : g'.SameRun step bound g'') :
    g.SameRun step bound g'' where
  solved := h'.solved
  values := h'.values.trans h.values
  inputs := h'.inputs.trans h.inputs
  outputs := h'.outputs.trans h.outputs
  printed := h'.printed.trans h.printed

/-- What is declared stays true. -/
theorem SameRun.typesHold (h : g.SameRun step bound g') (htypes : g.TypesHold bound) :
    g'.TypesHold bound := by
  intro v type t htype hread
  refine htypes v type t ?_ hread
  unfold tensorType? type? value? at htype ⊢
  rw [← h.values]
  exact htype

/-- A successful run solves the graph. -/
theorem exists_solvedBy {inputs outs : List Tensor} (hg : g.SingleAssignment)
    (h : g.run step inputs = .ok outs) :
    ∃ start bound values, g.bindInputs inputs = .ok start ∧ Bindings.Agree g.inputs start bound ∧
      g.SolvedBy step bound ∧ g.execute step inputs = .ok (bound, values) ∧
      g.outputs.mapM bound.read = .ok values ∧ values.mapM Datum.toTensor = .ok outs := by
  obtain ⟨start, bound, values, hstart, hbound, hvalues, houts⟩ := run_eq_ok.mp h
  refine ⟨start, bound, values, hstart, fun v hv => ?_, ⟨hg, ?_⟩, ?_, hvalues, houts⟩
  · refine (read_of_notMem_outputs hbound fun hout => ?_).symm
    obtain ⟨node, hn, hout⟩ := List.mem_flatMap.mp hout
    exact hg.nodes.not_mem_inputs hn hout hv
  · exact solves_of_foldlM hg.nodes hbound
  · exact execute_eq_ok.mpr ⟨start, hstart, hbound, hvalues⟩

/-- What is declared about a truthful graph is true of the solution. -/
theorem exists_solution {inputs outs : List Tensor} (hg : g.SingleAssignment)
    (htrue : g.Truthful step) (h : g.run step inputs = .ok outs) :
    ∃ start bound values, g.bindInputs inputs = .ok start ∧ Bindings.Agree g.inputs start bound ∧
      g.SolvedBy step bound ∧ g.TypesHold bound ∧ g.outputs.mapM bound.read = .ok values ∧
      values.mapM Datum.toTensor = .ok outs := by
  obtain ⟨start, bound, values, hstart, hagree, hsolved, hexecute, hvalues, houts⟩ :=
    exists_solvedBy hg h
  exact ⟨start, bound, values, hstart, hagree, hsolved, htrue inputs outs bound values h hexecute,
    hvalues, houts⟩

/-- A solved graph runs: its outputs are what the solution holds for them, and it prints what the
solution holds for the operands of its print nodes. -/
theorem SolvedBy.run {inputs outs : List Tensor} {start : Bindings} {values : List Datum}
    (h : g.SolvedBy step bound) (hstart : g.bindInputs inputs = .ok start)
    (hagree : Bindings.Agree g.inputs start bound)
    (hvalues : g.outputs.mapM bound.read = .ok values)
    (houts : values.mapM Datum.toTensor = .ok outs) :
    g.run step inputs = .ok outs ∧
      g.printed step inputs = g.nodes.flatMap (Node.printed · bound) := by
  obtain ⟨next, hnext, hsame⟩ := foldlM_of_solves h.form.nodes hagree h.nodes
  refine ⟨run_eq_ok.mpr ⟨start, next, values, hstart, hnext, ?_, houts⟩, ?_⟩
  · rw [hsame.mapM_read h.form.outputs, hvalues]
  · unfold printed
    rw [hstart]
    exact printedFrom_of_solves h.form.nodes hagree h.nodes

/-- A graph that fits a run of another one gives and prints the same. -/
theorem SameRun.run {inputs outs : List Tensor} {start : Bindings} {values : List Datum}
    (h : g.SameRun step bound g') (hg : g.SolvedBy step bound)
    (hstart : g.bindInputs inputs = .ok start) (hagree : Bindings.Agree g.inputs start bound)
    (hvalues : g.outputs.mapM bound.read = .ok values)
    (houts : values.mapM Datum.toTensor = .ok outs) :
    g'.run step inputs = .ok outs ∧ g'.printed step inputs = g.printed step inputs := by
  obtain ⟨-, hprinted⟩ := hg.run hstart hagree hvalues houts
  rw [← bindInputs_congr h.values h.inputs] at hstart
  rw [← h.inputs] at hagree
  rw [← h.outputs] at hvalues
  obtain ⟨hrun, hprinted'⟩ := h.solved.run hstart hagree hvalues houts
  exact ⟨hrun, by rw [hprinted', hprinted, h.printed]⟩

/-! ## Changes -/

/-- Changing nodes into nodes that are solved too. -/
theorem SameRun.map {f : Node → Node} (h : g.SolvedBy step bound)
    (hf : ∀ node ∈ g.nodes, (f node).Narrows node)
    (hsolves : ∀ node ∈ g.nodes, bound.Solves step (f node))
    (hprinted : ∀ node ∈ g.nodes, (f node).printed bound = node.printed bound) :
    g.SameRun step bound { g with nodes := g.nodes.map f } where
  solved := by
    refine ⟨h.form.map hf, fun node hn => ?_⟩
    obtain ⟨old, hold, rfl⟩ := List.mem_map.mp hn
    exact hsolves old hold
  values := rfl
  inputs := rfl
  outputs := rfl
  printed := (List.flatMap_map f _ g.nodes).trans (List.flatMap_congr hprinted)

/-- Dropping nodes that print nothing and whose results no remaining node reads. -/
theorem SameRun.filter {keep : Node → Bool} (h : g.SolvedBy step bound)
    (hkeep : ∀ node ∈ g.nodes, keep node = true → ∀ v ∈ node.inputs, ∀ definer ∈ g.nodes,
      v ∈ definer.outputs → keep definer = true)
    (houtputs : ∀ v ∈ g.outputs, ∀ definer ∈ g.nodes, v ∈ definer.outputs → keep definer = true)
    (hprinted : ∀ node ∈ g.nodes, keep node = false → node.printed bound = []) :
    g.SameRun step bound { g with nodes := g.nodes.filter keep } where
  solved := ⟨h.form.filter hkeep houtputs, fun node hn => h.nodes node (List.mem_of_mem_filter hn)⟩
  values := rfl
  inputs := rfl
  outputs := rfl
  printed := by
    show (g.nodes.filter keep).flatMap _ = _
    generalize g.nodes = nodes at hprinted
    induction nodes with
    | nil => rfl
    | cons node nodes ih =>
      have hrest := ih fun n hn => hprinted n (List.mem_cons_of_mem _ hn)
      cases hk : keep node with
      | true => rw [List.filter_cons_of_pos hk, List.flatMap_cons, List.flatMap_cons, hrest]
      | false =>
        rw [List.filter_cons_of_neg (by rw [hk]; exact Bool.false_ne_true), List.flatMap_cons,
          hrest, hprinted node List.mem_cons_self hk, List.nil_append]

end Graph

/-! ## Retiring a node -/

section

variable {bound : Bindings} {old new : ValueId} {node : Node}

/-- Equal values may be exchanged. -/
theorem Bindings.mapM_read_replace (hsame : bound.read new = bound.read old) (vs : List ValueId) :
    (vs.map fun v => if v = old then new else v).mapM bound.read = vs.mapM bound.read := by
  induction vs with
  | nil => rfl
  | cons v vs ih =>
    have hhead : bound.read (if v = old then new else v) = bound.read v := by
      by_cases h : v = old
      · rw [if_pos h, hsame, h]
      · rw [if_neg h]
    rw [List.map_cons, List.mapM_cons, List.mapM_cons, ih, hhead]

theorem Node.printed_replaceInput (hsame : bound.read new = bound.read old) :
    (node.replaceInput old new).printed bound = node.printed bound := by
  have hinputs := Bindings.mapM_read_replace hsame node.inputs
  unfold printed replaceInput
  dsimp only
  rw [hinputs]

/-- The reference interpreter runs a node on values, whatever their ids are. -/
theorem Bindings.Solves.replaceInput (h : bound.Solves Reference.interpret node)
    (hsame : bound.read new = bound.read old) :
    bound.Solves Reference.interpret (node.replaceInput old new) := by
  obtain ⟨args, results, hargs, hresults, houtputs⟩ := h
  refine ⟨args, results, ?_, hresults, houtputs⟩
  exact (Bindings.mapM_read_replace hsame node.inputs).trans hargs

/-- Retiring a node that prints nothing in favour of a value equal to its result. -/
theorem Graph.SameRun.retire {g : Graph} {before after : List Node}
    (h : g.SolvedBy Reference.interpret bound) (hsplit : g.nodes = before ++ node :: after)
    (hout : node.outputs = [old]) (hnew : new ∈ definedBy g.inputs before)
    (hsame : bound.read new = bound.read old) (hprinted : node.printed bound = []) :
    g.SameRun Reference.interpret bound (g.retire node.id old new) where
  solved := by
    refine ⟨h.form.retire hsplit hout hnew, fun n hn => ?_⟩
    obtain ⟨m, hm, rfl⟩ := exists_of_mem_retire h.form hsplit hout hn
    exact (h.nodes m hm).replaceInput hsame
  values := rfl
  inputs := rfl
  outputs := Bindings.mapM_read_replace hsame g.outputs
  printed := by
    have hafter : (after.map (Node.replaceInput old new)).flatMap (Node.printed · bound) =
        after.flatMap (Node.printed · bound) :=
      (List.flatMap_map _ _ after).trans
        (List.flatMap_congr fun n _ => Node.printed_replaceInput hsame)
    rw [nodes_retire new h.form hsplit hout, hsplit, List.flatMap_append, List.flatMap_append,
      List.flatMap_cons, hprinted, hafter, List.nil_append]

end

end HybridGraph
