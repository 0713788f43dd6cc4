import HybridGraph.Execute.Run
import HybridGraph.Proofs.Outcome
import Mathlib.Data.List.Induction
/-!
# What a run reads and binds

Bindings that agree on some values keep agreeing while the same nodes run, as long as the nodes
read nothing else (`Bindings.Agree`, `foldlM_runNode_agree`).  A run changes only the values that
its nodes define, and binds all of them:

    nodes.foldlM (runNode step) b = .ok b' → v ∉ nodes.flatMap Node.outputs → b'.read v = b.read v
    nodes.foldlM (runNode step) b = .ok b' → v ∈ nodes.flatMap Node.outputs → ∃ x, b'.read v = .ok x
-/

namespace HybridGraph

/-! ## Reading and extending -/

namespace Bindings

variable {b c : Bindings} {v : ValueId} {vs ws : List ValueId} {xs : List Datum}

theorem read_cons {w : ValueId} {x : Datum} :
    read ((w, x) :: b) v = if v = w then .ok x else b.read v := by
  unfold read
  rw [List.lookup_cons]
  by_cases h : v = w
  · simp [h]
  · have hne : (v == w) = false := by simpa using h
    simp [h, hne]

theorem extend_cons {x : Datum} :
    b.extend (v :: vs) (x :: xs) = extend ((v, x) :: b) vs xs := rfl

/-- Other values stay as they are. -/
theorem read_extend_of_notMem (hv : v ∉ vs) : (b.extend vs xs).read v = b.read v := by
  induction vs generalizing b xs with
  | nil => rfl
  | cons w vs ih =>
    rw [List.mem_cons, not_or] at hv
    obtain ⟨hne, hrest⟩ := hv
    cases xs with
    | nil => rfl
    | cons x xs => rw [extend_cons, ih hrest, read_cons, if_neg hne]

/-- Two bindings give the same values. -/
def Agree (vs : List ValueId) (b c : Bindings) : Prop := ∀ v ∈ vs, b.read v = c.read v

/-- Binding the same values keeps agreement and extends it. -/
theorem Agree.extend (h : Agree ws b c) (hlen : xs.length = vs.length) :
    Agree (ws ++ vs) (b.extend vs xs) (c.extend vs xs) := by
  induction vs generalizing b c xs ws with
  | nil =>
    obtain rfl : xs = [] := List.length_eq_zero_iff.mp hlen
    rw [List.append_nil]
    exact h
  | cons v vs ih =>
    cases xs with
    | nil => cases hlen
    | cons x xs =>
      have hcons : Agree (ws ++ [v]) ((v, x) :: b) ((v, x) :: c) := by
        intro w hw
        rw [read_cons, read_cons]
        by_cases he : w = v
        · rw [if_pos he, if_pos he]
        · rw [if_neg he, if_neg he]
          refine h w ?_
          simpa [he] using hw
      have hrest := ih hcons (Nat.succ.inj hlen)
      rw [List.append_assoc] at hrest
      exact hrest

theorem Agree.mapM_read (h : Agree ws b c) (hsub : vs ⊆ ws) : vs.mapM b.read = vs.mapM c.read := by
  induction vs with
  | nil => rfl
  | cons v vs ih =>
    rw [List.mapM_cons, List.mapM_cons, h v (hsub List.mem_cons_self),
      ih (List.subset_of_cons_subset hsub)]

/-- Values that are read from one place and bound in another are the same in both. -/
theorem agree_extend_of_mapM_read (h : vs.mapM c.read = .ok xs) : Agree vs (b.extend vs xs) c := by
  induction vs generalizing b xs with
  | nil =>
    intro v hv
    cases hv
  | cons w vs ih =>
    obtain ⟨x, rest, hx, hrest, rfl⟩ := Outcome.mapM_cons_eq_ok.mp h
    intro v hv
    rw [extend_cons]
    by_cases hmem : v ∈ vs
    · exact ih hrest v hmem
    · obtain rfl : v = w := (List.mem_cons.mp hv).resolve_right hmem
      rw [read_extend_of_notMem hmem, read_cons, if_pos rfl, hx]

theorem length_of_mapM_read (h : vs.mapM b.read = .ok xs) : xs.length = vs.length :=
  (Outcome.mapM_eq_ok.mp h).length_eq.symm

/-- The first of some values that are read together. -/
theorem read_of_head? {x : Datum} (h : vs.mapM b.read = .ok xs) (hv : vs.head? = some v)
    (hx : xs.head? = some x) : b.read v = .ok x := by
  obtain ⟨vs, rfl⟩ := List.head?_eq_some_iff.mp hv
  obtain ⟨y, ys, hread, -, rfl⟩ := Outcome.mapM_cons_eq_ok.mp h
  obtain rfl := Option.some.inj hx
  exact hread

/-- Bound values can be read together. -/
theorem exists_mapM_read (h : ∀ v ∈ vs, ∃ x, b.read v = .ok x) : ∃ xs, vs.mapM b.read = .ok xs := by
  induction vs with
  | nil => exact ⟨[], rfl⟩
  | cons v vs ih =>
    obtain ⟨x, hx⟩ := h v List.mem_cons_self
    obtain ⟨xs, hxs⟩ := ih fun w hw => h w (List.mem_cons_of_mem _ hw)
    exact ⟨x :: xs, Outcome.mapM_cons_eq_ok.mpr ⟨x, xs, hx, hxs, rfl⟩⟩

/-- Values that are bound are bound. -/
theorem exists_read_extend (hlen : xs.length = vs.length) (hv : v ∈ vs) :
    ∃ x, (b.extend vs xs).read v = .ok x := by
  induction vs generalizing b xs with
  | nil => cases hv
  | cons w vs ih =>
    cases xs with
    | nil => cases hlen
    | cons x xs =>
      rw [extend_cons]
      by_cases hmem : v ∈ vs
      · exact ih (Nat.succ.inj hlen) hmem
      · obtain rfl : v = w := (List.mem_cons.mp hv).resolve_right hmem
        exact ⟨x, by rw [read_extend_of_notMem hmem, read_cons, if_pos rfl]⟩

end Bindings

/-! ## Running nodes -/

namespace Graph

variable {step : Interpreter} {b b' c : Bindings} {node : Node} {nodes : List Node} {v : ValueId}

/-- Without other effects a node is run as outcomes are bound. -/
theorem runNode_eq (step : Interpreter) (b : Bindings) (node : Node) :
    runNode step b node = (do
      let args ← node.inputs.mapM b.read
      let results ← step node args
      if results.length ≠ node.outputs.length then
        throw (.outputCount node.id node.kind node.outputs.length results.length)
      return b.extend node.outputs results) := rfl

theorem execute_eq (g : Graph) (step : Interpreter) (inputs : List Tensor) :
    g.execute step inputs = (do
      let bound ← g.bindInputs inputs
      let bound ← g.nodes.foldlM (runNode step) bound
      return (bound, ← g.outputs.mapM bound.read)) := rfl

theorem runNode_eq_ok :
    runNode step b node = .ok b' ↔ ∃ args results, node.inputs.mapM b.read = .ok args ∧
      step node args = .ok results ∧ results.length = node.outputs.length ∧
      b.extend node.outputs results = b' := by
  rw [runNode_eq]
  simp only [Outcome.bind_eq_ok]
  constructor
  · rintro ⟨args, hargs, results, hresults, h⟩
    by_cases hlen : results.length = node.outputs.length
    · rw [if_neg (not_not_intro hlen)] at h
      exact ⟨args, results, hargs, hresults, hlen, Outcome.pure_eq_ok.mp h⟩
    · rw [if_pos hlen] at h
      cases h
  · rintro ⟨args, results, hargs, hresults, hlen, hb⟩
    refine ⟨args, hargs, results, hresults, ?_⟩
    rw [if_neg (not_not_intro hlen)]
    exact Outcome.pure_eq_ok.mpr hb

theorem foldlM_runNode_concat :
    (nodes ++ [node]).foldlM (runNode step) b = .ok b' ↔
      ∃ mid, nodes.foldlM (runNode step) b = .ok mid ∧ runNode step mid node = .ok b' := by
  rw [Outcome.foldlM_append_eq_ok]
  simp only [List.foldlM_cons, List.foldlM_nil, bind_pure]

/-- A run changes only what its nodes define. -/
theorem read_of_notMem_outputs (h : nodes.foldlM (runNode step) b = .ok b')
    (hv : v ∉ nodes.flatMap Node.outputs) : b'.read v = b.read v := by
  induction nodes using List.reverseRecOn generalizing b' with
  | nil => rw [Outcome.pure_eq_ok.mp h]
  | append_singleton nodes node ih =>
    obtain ⟨mid, hmid, hnode⟩ := foldlM_runNode_concat.mp h
    obtain ⟨args, results, -, -, -, rfl⟩ := runNode_eq_ok.mp hnode
    rw [List.flatMap_append, List.flatMap_singleton, List.mem_append, not_or] at hv
    rw [Bindings.read_extend_of_notMem hv.2, ih hmid hv.1]

/-- A run binds what its nodes define. -/
theorem exists_read_of_mem_outputs (h : nodes.foldlM (runNode step) b = .ok b')
    (hv : v ∈ nodes.flatMap Node.outputs) : ∃ x, b'.read v = .ok x := by
  induction nodes using List.reverseRecOn generalizing b' with
  | nil => cases hv
  | append_singleton nodes node ih =>
    obtain ⟨mid, hmid, hnode⟩ := foldlM_runNode_concat.mp h
    obtain ⟨args, results, -, -, hlen, rfl⟩ := runNode_eq_ok.mp hnode
    rw [List.flatMap_append, List.flatMap_singleton, List.mem_append] at hv
    by_cases hlast : v ∈ node.outputs
    · exact Bindings.exists_read_extend hlen hlast
    · rw [Bindings.read_extend_of_notMem hlast]
      exact ih hmid (hv.resolve_right hlast)

/-- A node runs alike on bindings that agree on its operands. -/
theorem runNode_agree {vs : List ValueId} (h : runNode step b node = .ok b')
    (hagree : Bindings.Agree vs c b) (hreads : node.inputs ⊆ vs) :
    ∃ c', runNode step c node = .ok c' ∧ Bindings.Agree (vs ++ node.outputs) c' b' := by
  obtain ⟨args, results, hargs, hresults, hlen, rfl⟩ := runNode_eq_ok.mp h
  refine ⟨c.extend node.outputs results, ?_, hagree.extend hlen⟩
  refine runNode_eq_ok.mpr ⟨args, results, ?_, hresults, hlen, rfl⟩
  rw [hagree.mapM_read hreads]
  exact hargs

/-- Nodes run alike on bindings that agree on what they read from outside. -/
theorem foldlM_runNode_agree {vs : List ValueId} (h : nodes.foldlM (runNode step) b = .ok b')
    (hagree : Bindings.Agree vs c b)
    (hreads : ∀ front node back, nodes = front ++ node :: back →
      node.inputs ⊆ vs ++ front.flatMap Node.outputs) :
    ∃ c', nodes.foldlM (runNode step) c = .ok c' ∧
      Bindings.Agree (vs ++ nodes.flatMap Node.outputs) c' b' := by
  induction nodes using List.reverseRecOn generalizing b' with
  | nil =>
    rw [← Outcome.pure_eq_ok.mp h]
    refine ⟨c, rfl, ?_⟩
    simpa using hagree
  | append_singleton nodes node ih =>
    obtain ⟨mid, hmid, hnode⟩ := foldlM_runNode_concat.mp h
    obtain ⟨mid', hmid', hagree'⟩ := ih hmid fun front n back hn =>
      hreads front n (back ++ [node]) (by rw [hn]; simp)
    obtain ⟨c', hc', hlast⟩ := runNode_agree hnode hagree' (hreads nodes node [] rfl)
    refine ⟨c', foldlM_runNode_concat.mpr ⟨mid', hmid', hc'⟩, ?_⟩
    rw [List.flatMap_append, List.flatMap_singleton, ← List.append_assoc]
    exact hlast

/-! ## Running graphs -/

/-- A run binds the inputs, runs the nodes and reads the outputs. -/
theorem execute_eq_ok {g : Graph} {inputs : List Tensor} {values : List Datum} :
    g.execute step inputs = .ok (b, values) ↔ ∃ start, g.bindInputs inputs = .ok start ∧
      g.nodes.foldlM (runNode step) start = .ok b ∧ g.outputs.mapM b.read = .ok values := by
  rw [execute_eq]
  simp only [Outcome.bind_eq_ok, Outcome.pure_eq_ok, Prod.mk.injEq]
  constructor
  · rintro ⟨start, hstart, _, hbound, _, hvalues, rfl, rfl⟩
    exact ⟨start, hstart, hbound, hvalues⟩
  · rintro ⟨start, hstart, hbound, hvalues⟩
    exact ⟨start, hstart, b, hbound, values, hvalues, rfl, rfl⟩

/-- A run of a graph also insists that the outputs are tensors. -/
theorem run_eq_ok {g : Graph} {inputs outs : List Tensor} :
    g.run step inputs = .ok outs ↔ ∃ start bound values, g.bindInputs inputs = .ok start ∧
      g.nodes.foldlM (runNode step) start = .ok bound ∧
      g.outputs.mapM bound.read = .ok values ∧ values.mapM Datum.toTensor = .ok outs := by
  unfold run
  rw [Outcome.bind_eq_ok]
  constructor
  · rintro ⟨⟨bound, values⟩, hexecute, h⟩
    obtain ⟨start, hstart, hbound, hvalues⟩ := execute_eq_ok.mp hexecute
    exact ⟨start, bound, values, hstart, hbound, hvalues, h⟩
  · rintro ⟨start, bound, values, hstart, hbound, hvalues, h⟩
    exact ⟨(bound, values), execute_eq_ok.mpr ⟨start, hstart, hbound, hvalues⟩, h⟩

/-- The inputs are bound if there are enough of them and none is refused. -/
theorem bindInputs_eq_ok {g : Graph} {inputs : List Tensor} :
    g.bindInputs inputs = .ok b ↔ inputs.length = g.inputs.length ∧
      (∀ entry ∈ (g.inputs.zip inputs).zipIdx,
        g.checkInput entry.2 entry.1.1 entry.1.2 = .ok ()) ∧
      Bindings.extend [] g.inputs (inputs.map .tensor) = b := by
  unfold bindInputs
  by_cases hlen : inputs.length = g.inputs.length
  · rw [if_neg (not_not_intro hlen)]
    simp only [Outcome.bind_eq_ok, Outcome.pure_eq_ok, hlen, true_and]
    constructor
    · rintro ⟨⟨⟩, hchecks, hstart⟩
      exact ⟨Outcome.forM_eq_ok.mp hchecks, hstart⟩
    · rintro ⟨hchecks, hstart⟩
      exact ⟨(), Outcome.forM_eq_ok.mpr hchecks, hstart⟩
  · simp [hlen, bind, Except.bind]

/-- The graph inputs are bound before the first node runs. -/
theorem exists_read_of_bindInputs {g : Graph} {inputs : List Tensor}
    (h : g.bindInputs inputs = .ok b) (hv : v ∈ g.inputs) : ∃ x, b.read v = .ok x := by
  obtain ⟨hlen, -, rfl⟩ := bindInputs_eq_ok.mp h
  exact Bindings.exists_read_extend (by rw [List.length_map, hlen]) hv

end Graph

end HybridGraph
