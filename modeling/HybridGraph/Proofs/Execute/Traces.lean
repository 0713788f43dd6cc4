import HybridGraph.Proofs.Execute.Solution
import HybridGraph.Proofs.Graph.WellFormed
/-!
# What interrupted runs bind

A trace is what a run has bound when it ends or one of its nodes fails.  In a graph in single
assignment form it binds every value at most once (`nodup_trace`), and it solves every node one of
whose results it binds:

    g.SingleAssignment → (g.trace step inputs).SolvesBound step g.nodes       (solvesBound_trace)
-/

namespace HybridGraph

/-! ## Bound values -/

namespace Bindings

variable {b : Bindings} {v : ValueId} {vs : List ValueId} {xs : List Datum} {x : Datum}

theorem keys_extend (hlen : xs.length = vs.length) :
    (b.extend vs xs).map Prod.fst = vs.reverse ++ b.map Prod.fst := by
  induction vs generalizing b xs with
  | nil =>
    obtain rfl : xs = [] := List.length_eq_zero_iff.mp hlen
    rfl
  | cons w vs ih =>
    cases xs with
    | nil => cases hlen
    | cons y xs =>
      rw [extend_cons, ih (Nat.succ.inj hlen)]
      simp

theorem mem_keys_of_read (h : b.read v = .ok x) : v ∈ b.map Prod.fst := by
  induction b with
  | nil => cases h
  | cons entry b ih =>
    obtain ⟨w, y⟩ := entry
    rw [read_cons] at h
    split at h
    · next heq => exact heq ▸ List.mem_cons_self
    · exact List.mem_cons_of_mem w (ih h)

/-- Values that are bound once are read as they were bound. -/
theorem read_of_mem (hnodup : (b.map Prod.fst).Nodup) (h : (v, x) ∈ b) : b.read v = .ok x := by
  induction b with
  | nil => cases h
  | cons entry b ih =>
    obtain ⟨hfresh, hnodup⟩ := List.nodup_cons.mp hnodup
    rw [read_cons]
    rcases List.mem_cons.mp h with rfl | h
    · exact if_pos rfl
    · have hne : v ≠ entry.1 := fun heq => hfresh (List.mem_map.mpr ⟨(v, x), h, heq⟩)
      rw [if_neg hne, ih hnodup h]

/-- Every node of which a result is bound is solved. -/
def SolvesBound (bound : Bindings) (step : Interpreter) (nodes : List Node) : Prop :=
  ∀ node ∈ nodes, ∀ v ∈ node.outputs, ∀ x, bound.read v = .ok x → bound.Solves step node

end Bindings

/-! ## Traces -/

namespace Graph

variable {g : Graph} {step : Interpreter} {arena : Nat} {inputs : List Tensor}
  {nodes front back : List Node} {start bound : Bindings}

theorem keys_of_foldlM (h : nodes.foldlM (runNode step) start = .ok bound) :
    bound.map Prod.fst = (nodes.flatMap Node.outputs).reverse ++ start.map Prod.fst := by
  induction nodes using List.reverseRecOn generalizing bound with
  | nil =>
    obtain rfl := Outcome.pure_eq_ok.mp h
    rfl
  | append_singleton nodes node ih =>
    obtain ⟨mid, hmid, hnode⟩ := foldlM_runNode_concat.mp h
    obtain ⟨args, results, -, -, hlen, rfl⟩ := runNode_eq_ok.mp hnode
    rw [Bindings.keys_extend hlen, ih hmid, List.flatMap_append, List.flatMap_singleton,
      List.reverse_append, List.append_assoc]

/-- A run that stops has run some of the nodes, in order. -/
theorem exists_of_runWhileOk (step : Interpreter) (start : Bindings) (nodes : List Node) :
    ∃ front back, nodes = front ++ back ∧
      front.foldlM (runNode step) start = .ok (runWhileOk step start nodes) := by
  induction nodes generalizing start with
  | nil => exact ⟨[], [], rfl, rfl⟩
  | cons node nodes ih =>
    unfold runWhileOk
    split
    · next next hnext =>
      obtain ⟨front, back, rfl, hfront⟩ := ih next
      exact ⟨node :: front, back, rfl, Outcome.foldlM_cons_eq_ok.mpr ⟨next, hnext, hfront⟩⟩
    · exact ⟨[], node :: nodes, rfl, rfl⟩

/-- Nothing is bound, or the inputs are and some of the nodes have run. -/
theorem trace_cases (g : Graph) (step : Interpreter) (inputs : List Tensor) :
    g.trace step inputs = [] ∨ inputs.length = g.inputs.length ∧ ∃ front back,
      g.nodes = front ++ back ∧
      front.foldlM (runNode step) (Bindings.extend [] g.inputs (inputs.map .tensor)) =
        .ok (g.trace step inputs) := by
  unfold trace
  split
  · next start hstart =>
    obtain ⟨hlen, -, rfl⟩ := bindInputs_eq_ok.mp hstart
    exact .inr ⟨hlen, exists_of_runWhileOk step _ g.nodes⟩
  · exact .inl rfl

/-- What a run has bound are the inputs and the results of the nodes that have run. -/
theorem keys_of_run (hlen : inputs.length = g.inputs.length)
    (h : front.foldlM (runNode step) (Bindings.extend [] g.inputs (inputs.map .tensor)) =
      .ok bound) : bound.map Prod.fst = (definedBy g.inputs front).reverse := by
  rw [keys_of_foldlM h, Bindings.keys_extend (by rw [List.length_map, hlen])]
  simp [definedBy]

theorem nodup_definedBy (hg : g.SingleAssignment) (hfront : g.nodes = front ++ back) :
    (definedBy g.inputs front).Nodup := by
  have horder : InOrder g.values.size g.inputs front := (hfront ▸ hg.nodes).of_append
  refine List.nodup_append.mpr ⟨hg.distinct, horder.nodup_flatMap_outputs, ?_⟩
  rintro v hv _ hout rfl
  obtain ⟨node, hn, hout⟩ := List.mem_flatMap.mp hout
  exact horder.not_mem_inputs hn hout hv

theorem nodup_trace (hg : g.SingleAssignment) (step : Interpreter) (inputs : List Tensor) :
    ((g.trace step inputs).map Prod.fst).Nodup := by
  rcases g.trace_cases step inputs with hnone | ⟨hlen, front, back, hfront, hrun⟩
  · rw [hnone]
    exact List.nodup_nil
  · rw [keys_of_run hlen hrun]
    exact List.nodup_reverse.mpr (nodup_definedBy hg hfront)

theorem mem_definedBy_of_read {v : ValueId} {x : Datum}
    (h : (g.trace step inputs).read v = .ok x) : v ∈ definedBy g.inputs g.nodes := by
  have hkey := Bindings.mem_keys_of_read h
  rcases g.trace_cases step inputs with hnone | ⟨hlen, front, back, hfront, hrun⟩
  · rw [hnone] at hkey
    cases hkey
  · rw [keys_of_run hlen hrun, List.mem_reverse] at hkey
    rw [hfront]
    exact definedBy_subset_append _ _ _ hkey

/-- A node of which a result is bound has run. -/
theorem solvesBound_trace (hg : g.SingleAssignment) (step : Interpreter) (inputs : List Tensor) :
    (g.trace step inputs).SolvesBound step g.nodes := by
  intro node hn v hv x hx
  have hkey := Bindings.mem_keys_of_read hx
  rcases g.trace_cases step inputs with hnone | ⟨hlen, front, back, hfront, hrun⟩
  · rw [hnone] at hkey
    cases hkey
  · -- what is bound was given or computed, and no other node defines it
    rw [keys_of_run hlen hrun, List.mem_reverse] at hkey
    rcases mem_definedBy.mp hkey with hinput | ⟨other, hother, hout⟩
    · exact absurd hinput (hg.nodes.not_mem_inputs hn hv)
    · have hmem : other ∈ g.nodes := hfront ▸ List.mem_append_left back hother
      obtain rfl := hg.nodes.eq_of_output hmem hn hout hv
      exact solves_of_foldlM (hfront ▸ hg.nodes).of_append hrun other hother

/-- Bound inputs keep the values that were given. -/
theorem mapM_read_trace (hg : g.SingleAssignment) (step : Interpreter) (inputs : List Tensor) :
    g.trace step inputs = [] ∨
      g.inputs.mapM (g.trace step inputs).read = .ok (inputs.map .tensor) := by
  refine (g.trace_cases step inputs).imp_right ?_
  rintro ⟨hlen, front, back, hfront, hrun⟩
  have hstart : g.inputs.mapM (Bindings.extend [] g.inputs (inputs.map .tensor)).read =
      .ok (inputs.map .tensor) :=
    Bindings.mapM_read_extend hg.distinct (by rw [List.length_map, hlen])
  have hagree : Bindings.Agree g.inputs (g.trace step inputs)
      (Bindings.extend [] g.inputs (inputs.map .tensor)) := by
    intro v hv
    refine read_of_notMem_outputs hrun fun hout => ?_
    obtain ⟨node, hn, hout⟩ := List.mem_flatMap.mp hout
    have hmem : node ∈ g.nodes := hfront ▸ List.mem_append_left back hn
    exact hg.nodes.not_mem_inputs hmem hout hv
  rw [hagree.mapM_read (List.Subset.refl _), hstart]

end Graph

end HybridGraph
