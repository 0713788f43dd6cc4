import HybridGraph.Proofs.Execute.Faults
import HybridGraph.Proofs.Execute.Solution
import HybridGraph.Proofs.Graph.Indexing
import HybridGraph.Proofs.Graph.WellFormed
/-!
# What a run calls

`Graph.Performs` builds the calls of a run one after the other: each is a call of the next node, in
the state that the call before it has left, and its operands are what the only definitions of their
values have produced, by the inputs and the calls before it.  `Graph.Run` adds how the run ends.
Neither mentions the bindings that the executor keeps.  Every run of an accepted graph goes this
way, whatever state its step keeps, and makes no other calls, as a step that notes them finds:

    g.verify = .ok () → ∃ calls outcome final, g.Run step inputs start calls outcome final ∧
      answerFrom (start, []) (g.executeIn (recording step) inputs) = (outcome, final, calls)

So it never misses a value by itself:

    g.verify = .ok () → g.execute Reference.interpret inputs ≠ .error (.unbound v)

Both are parts of `Graph.execute_reads_definitions`.
-/

namespace HybridGraph

/-! ## Steps with a state -/

section

variable {σ α β : Type} {s s' : σ}

/-- What a computation with a state answers, and the state that it leaves. -/
def answerFrom (start : σ) (x : ExceptT ExecError (StateM σ) α) : Except ExecError α × σ :=
  (x.run.run start).run

theorem answerFrom_bind_of_ok {x : ExceptT ExecError (StateM σ) α} {a : α}
    (h : answerFrom s x = (.ok a, s')) (f : α → ExceptT ExecError (StateM σ) β) :
    answerFrom s (x >>= f) = answerFrom s' (f a) := by
  have h : x s = (Except.ok a, s') := h
  show (ExceptT.bindCont f (x s).1 : StateM σ (Except ExecError β)) (x s).2 = _
  rw [h]
  rfl

theorem answerFrom_bind_of_error {x : ExceptT ExecError (StateM σ) α} {e : ExecError}
    (h : answerFrom s x = (.error e, s')) (f : α → ExceptT ExecError (StateM σ) β) :
    answerFrom s (x >>= f) = (.error e, s') := by
  have h : x s = (Except.error e, s') := h
  show (ExceptT.bindCont f (x s).1 : StateM σ (Except ExecError β)) (x s).2 = _
  rw [h]
  rfl

/-- An outcome without effects leaves the state. -/
theorem answerFrom_lift (x : Except ExecError α) :
    answerFrom s (x : ExceptT ExecError (StateM σ) α) = (x, s) := rfl

/-- A step that notes every call. -/
def recording (step : Stepper σ) : Stepper (σ × List (Node × List Datum)) :=
  fun node args => ExceptT.mk fun (s, calls) =>
    let (outcome, s) := answerFrom s (step node args)
    (outcome, (s, calls ++ [(node, args)]))

end

/-! ## Histories -/

/-- A call of a step that has succeeded: the node, the values of its operands and the results. -/
structure StepCall where
  node : Node
  args : List Datum
  results : List Datum

/-- What was asked for. -/
def StepCall.asked (call : StepCall) : Node × List Datum := (call.node, call.args)

/-- What a definition has produced: an input, or a result of a node that has been called. -/
def Definition.produced? (inputs : List Tensor) (done : List StepCall) : Definition → Option Datum
  | .input i => inputs[i]?.map .tensor
  | .node id slot => (done.find? (·.node.id = id)).bind fun call => call.results[slot]?

/-- What has been produced stays as calls are added. -/
theorem Definition.produced?_append {inputs : List Tensor} {done : List StepCall}
    {site : Definition} {x : Datum} (h : site.produced? inputs done = some x)
    (more : List StepCall) : site.produced? inputs (done ++ more) = some x := by
  cases site with
  | input i => exact h
  | node id slot =>
    obtain ⟨call, hcall, hx⟩ := Option.bind_eq_some_iff.mp h
    rw [produced?, List.find?_append, hcall]
    exact hx

namespace Graph

/-- The only definition of a value has produced a datum. -/
def Produced (g : Graph) (inputs : List Tensor) (done : List StepCall) (v : ValueId) (x : Datum) :
    Prop :=
  ∃ site, (∀ other, g.DefinedAt v other ↔ other = site) ∧ site.produced? inputs done = some x

/-- The calls of a run that have succeeded, one for each node and in their order, and the state
after them. -/
inductive Performs {σ : Type} (g : Graph) (step : Stepper σ) (inputs : List Tensor) (start : σ) :
    List StepCall → σ → Prop
  | start {bound : Bindings} (hinputs : g.bindInputs inputs = .ok bound) :
    Performs g step inputs start [] start
  | call {done : List StepCall} {node : Node} {args results : List Datum} {s s' : σ}
    (hdone : Performs g step inputs start done s) (hnext : g.nodes[done.length]? = some node)
    (hargs : List.Forall₂ (g.Produced inputs done) node.inputs args)
    (hresults : answerFrom s (step node args) = (.ok results, s'))
    (hcount : results.length = node.outputs.length) :
    Performs g step inputs start (done ++ [⟨node, args, results⟩]) s'

/-- All calls of a run, its outcome and the state that it leaves: the inputs are refused, the next
call fails or answers too few or too many values, or all nodes have been called. -/
inductive Run {σ : Type} (g : Graph) (step : Stepper σ) (inputs : List Tensor) (start : σ) :
    List (Node × List Datum) → Except ExecError (List Datum) → σ → Prop
  | refused {e : ExecError} (hinputs : g.bindInputs inputs = .error e) :
    Run g step inputs start [] (.error e) start
  | failed {done : List StepCall} {node : Node} {args : List Datum} {e : ExecError} {s s' : σ}
    (hdone : g.Performs step inputs start done s) (hnext : g.nodes[done.length]? = some node)
    (hargs : List.Forall₂ (g.Produced inputs done) node.inputs args)
    (hfails : answerFrom s (step node args) = (.error e, s')) :
    Run g step inputs start (done.map StepCall.asked ++ [(node, args)]) (.error e) s'
  | miscounted {done : List StepCall} {node : Node} {args results : List Datum} {s s' : σ}
    (hdone : g.Performs step inputs start done s) (hnext : g.nodes[done.length]? = some node)
    (hargs : List.Forall₂ (g.Produced inputs done) node.inputs args)
    (hresults : answerFrom s (step node args) = (.ok results, s'))
    (hcount : results.length ≠ node.outputs.length) :
    Run g step inputs start (done.map StepCall.asked ++ [(node, args)])
      (.error (.outputCount node.id node.kind node.outputs.length results.length)) s'
  | finished {done : List StepCall} {values : List Datum} {s : σ}
    (hdone : g.Performs step inputs start done s) (hall : done.length = g.nodes.length)
    (hvalues : List.Forall₂ (g.Produced inputs done) g.outputs values) :
    Run g step inputs start (done.map StepCall.asked) (.ok values) s

variable {σ : Type} {g : Graph} {step : Stepper σ} {inputs : List Tensor} {start s final : σ}
  {done : List StepCall} {bound : Bindings} {node : Node} {args results : List Datum} {v : ValueId}
  {x : Datum}

/-! ## What bindings record -/

/-- In a graph in single assignment form a definition of a value is the only one. -/
theorem SingleAssignment.definedAt_iff (hg : g.SingleAssignment) {site : Definition}
    (hsite : g.DefinedAt v site) (other : Definition) : g.DefinedAt v other ↔ other = site := by
  obtain ⟨index, hindex⟩ := GraphIndex.exists_build hg
  constructor
  · intro hother
    exact (GraphIndex.answers_of_build hindex).unique hother hsite
  · rintro rfl
    exact hsite

/-- The bindings of a run hold what the inputs and the calls have produced. -/
def Recorded (g : Graph) (inputs : List Tensor) (done : List StepCall) (bound : Bindings) : Prop :=
  ∀ v ∈ definedBy g.inputs (done.map StepCall.node),
    ∃ x, bound.read v = .ok x ∧ g.Produced inputs done v x

/-- Bound inputs are what is given. -/
theorem recorded_start (hg : g.SingleAssignment) (h : g.bindInputs inputs = .ok bound) :
    g.Recorded inputs [] bound := by
  obtain ⟨hlen, -, rfl⟩ := bindInputs_eq_ok.mp h
  have hread : g.inputs.mapM (Bindings.extend [] g.inputs (inputs.map .tensor)).read =
      .ok (inputs.map .tensor) :=
    Bindings.mapM_read_extend hg.distinct (by rw [List.length_map, hlen])
  intro v hv
  have hv : v ∈ g.inputs := by simpa [definedBy] using hv
  obtain ⟨i, hi⟩ := List.mem_iff_getElem?.mp hv
  obtain ⟨x, hx, hvalue⟩ :=
    Outcome.exists_getElem?_of_forall₂ (Outcome.mapM_eq_ok.mp hread) hi
  rw [List.getElem?_map] at hx
  have hsite : g.DefinedAt v (.input i) := hi
  exact ⟨x, hvalue, .input i, hg.definedAt_iff hsite, hx⟩

/-- Values that are defined can be read together. -/
theorem Recorded.exists_args (h : g.Recorded inputs done bound) {vs : List ValueId}
    (hvs : ∀ v ∈ vs, v ∈ definedBy g.inputs (done.map StepCall.node)) :
    ∃ args, vs.mapM bound.read = .ok args ∧ List.Forall₂ (g.Produced inputs done) vs args := by
  induction vs with
  | nil => exact ⟨[], rfl, .nil⟩
  | cons v vs ih =>
    obtain ⟨x, hx, hproduced⟩ := h v (hvs v List.mem_cons_self)
    obtain ⟨args, hargs, hrest⟩ := ih fun w hw => hvs w (List.mem_cons_of_mem v hw)
    exact ⟨x :: args, Outcome.mapM_cons_eq_ok.mpr ⟨x, args, hx, hargs, rfl⟩,
      .cons hproduced hrest⟩

/-- The results of a call are what the definitions at its node produce. -/
theorem produced_result (hg : g.SingleAssignment) {back : List Node}
    (hsplit : g.nodes = done.map StepCall.node ++ node :: back) {slot : Nat}
    (hv : node.outputs[slot]? = some v) (hx : results[slot]? = some x) :
    g.Produced inputs (done ++ [⟨node, args, results⟩]) v x := by
  have hn : node ∈ g.nodes := by simp [hsplit]
  have hsite : g.DefinedAt v (.node node.id slot) := ⟨node, hn, rfl, hv⟩
  refine ⟨.node node.id slot, hg.definedAt_iff hsite, ?_⟩
  -- the id of the node is new, so the search through the calls stops at the last one
  have hfresh := (hg.nodes _ node back hsplit).fresh
  have hnone : done.find? (·.node.id = node.id) = none := by
    rw [List.find?_eq_none]
    intro call hcall hid
    refine hfresh (List.mem_map.mpr ⟨call.node, List.mem_map_of_mem hcall, ?_⟩)
    simpa using hid
  rw [Definition.produced?, List.find?_append, hnone]
  simpa using hx

/-- A call binds its results and leaves what is recorded. -/
theorem Recorded.extend (h : g.Recorded inputs done bound) (hg : g.SingleAssignment)
    {back : List Node} (hsplit : g.nodes = done.map StepCall.node ++ node :: back)
    (hcount : results.length = node.outputs.length) :
    g.Recorded inputs (done ++ [⟨node, args, results⟩]) (bound.extend node.outputs results) := by
  have hnode := hg.nodes _ node back hsplit
  intro v hv
  rw [List.map_append, definedBy_append, List.mem_append] at hv
  rcases hv with hv | hv
  · obtain ⟨x, hx, site, honly, hproduced⟩ := h v hv
    refine ⟨x, ?_, site, honly, Definition.produced?_append hproduced _⟩
    rw [Bindings.read_extend_of_notMem fun hout => hnode.unassigned v hout hv, hx]
  · have hv : v ∈ node.outputs := by simpa using hv
    obtain ⟨slot, hslot⟩ := List.mem_iff_getElem?.mp hv
    obtain ⟨x, hx, hread⟩ := Outcome.exists_getElem?_of_forall₂
      (Outcome.mapM_eq_ok.mp (Bindings.mapM_read_extend (b := bound) hnode.distinct hcount)) hslot
    exact ⟨x, hread, produced_result hg hsplit hslot hx⟩

/-! ## Runs -/

theorem next_of_split {back : List Node}
    (hsplit : g.nodes = done.map StepCall.node ++ node :: back) :
    g.nodes[done.length]? = some node := by
  rw [hsplit, List.getElem?_append_right (by simp)]
  simp

/-- A node whose operands are bound is run by one call of the step, with these operands. -/
theorem answerFrom_runNodeIn (hargs : node.inputs.mapM bound.read = .ok args) :
    answerFrom s (runNodeIn step bound node) =
      ((answerFrom s (step node args)).1.bind fun results =>
        if results.length = node.outputs.length then .ok (bound.extend node.outputs results)
        else .error (.outputCount node.id node.kind node.outputs.length results.length),
        (answerFrom s (step node args)).2) := by
  unfold runNodeIn
  rw [answerFrom_bind_of_ok ((answerFrom_lift _).trans (congrArg (·, s) hargs))]
  obtain ⟨outcome, s', hcall⟩ : ∃ outcome s', answerFrom s (step node args) = (outcome, s') :=
    ⟨_, _, rfl⟩
  rw [hcall]
  cases outcome with
  | error e => exact answerFrom_bind_of_error hcall _
  | ok results =>
    rw [answerFrom_bind_of_ok hcall]
    by_cases hcount : results.length = node.outputs.length
    · rw [if_neg (not_not_intro hcount)]
      simp only [Except.bind, if_pos hcount]
      rfl
    · rw [if_pos hcount]
      simp only [Except.bind, if_neg hcount]
      rfl

/-- One node: the next call fails, or it succeeds and is recorded; either way it is the only one. -/
theorem run_node (hg : g.SingleAssignment) (hdone : g.Performs step inputs start done s)
    (hrecorded : g.Recorded inputs done bound) {back : List Node}
    (hsplit : g.nodes = done.map StepCall.node ++ node :: back) :
    ∃ args outcome s', answerFrom s (runNodeIn step bound node) = (outcome, s') ∧
      (∀ calls, answerFrom (s, calls) (runNodeIn (recording step) bound node) =
        (outcome, s', calls ++ [(node, args)])) ∧
      ((∃ e, outcome = .error e ∧
        g.Run step inputs start (done.map StepCall.asked ++ [(node, args)]) (.error e) s') ∨
      ∃ results, outcome = .ok (bound.extend node.outputs results) ∧
        g.Performs step inputs start (done ++ [⟨node, args, results⟩]) s' ∧
        g.Recorded inputs (done ++ [⟨node, args, results⟩])
          (bound.extend node.outputs results)) := by
  have hnext : g.nodes[done.length]? = some node := next_of_split hsplit
  obtain ⟨args, hargs, hproduced⟩ :=
    hrecorded.exists_args (hg.nodes _ node back hsplit).reads
  refine ⟨args, _, _, answerFrom_runNodeIn hargs, fun calls => answerFrom_runNodeIn hargs, ?_⟩
  obtain ⟨outcome, s', hcall⟩ : ∃ outcome s', answerFrom s (step node args) = (outcome, s') :=
    ⟨_, _, rfl⟩
  rw [hcall]
  cases outcome with
  | error e => exact .inl ⟨e, rfl, .failed hdone hnext hproduced hcall⟩
  | ok results =>
    by_cases hcount : results.length = node.outputs.length
    · exact .inr ⟨results, if_pos hcount, .call hdone hnext hproduced hcall hcount,
        hrecorded.extend hg hsplit hcount⟩
    · exact .inl ⟨_, if_neg hcount, .miscounted hdone hnext hproduced hcall hcount⟩

/-- The nodes that are left: one of their calls fails, or all are called and recorded. -/
theorem run_nodes (hg : g.SingleAssignment) {back : List Node}
    (hdone : g.Performs step inputs start done s) (hrecorded : g.Recorded inputs done bound)
    (hsplit : g.nodes = done.map StepCall.node ++ back) :
    ∃ calls outcome final, answerFrom s (back.foldlM (runNodeIn step) bound) = (outcome, final) ∧
      answerFrom (s, done.map StepCall.asked) (back.foldlM (runNodeIn (recording step)) bound) =
        (outcome, final, calls) ∧
      ((∃ e, outcome = .error e ∧ g.Run step inputs start calls (.error e) final) ∨
      ∃ all last, outcome = .ok last ∧ calls = all.map StepCall.asked ∧
        g.Performs step inputs start all final ∧ g.nodes = all.map StepCall.node ∧
        g.Recorded inputs all last) := by
  induction back generalizing done bound s with
  | nil =>
    rw [List.append_nil] at hsplit
    exact ⟨_, .ok bound, s, rfl, rfl, .inr ⟨done, bound, rfl, rfl, hdone, hsplit, hrecorded⟩⟩
  | cons node back ih =>
    obtain ⟨args, outcome, s', hnode, hnoted, hcases⟩ := run_node hg hdone hrecorded hsplit
    rw [List.foldlM_cons, List.foldlM_cons]
    rcases hcases with ⟨e, rfl, hrun⟩ | ⟨results, rfl, hdone, hrecorded⟩
    · exact ⟨_, .error e, s', answerFrom_bind_of_error hnode _,
        answerFrom_bind_of_error (hnoted _) _, .inl ⟨e, rfl, hrun⟩⟩
    · rw [answerFrom_bind_of_ok hnode, answerFrom_bind_of_ok (hnoted _)]
      simpa [StepCall.asked] using ih hdone hrecorded (by simp [hsplit])

/-- A run of a graph in single assignment form goes from call to call, and these are all. -/
theorem run_executeIn (hg : g.SingleAssignment) (step : Stepper σ) (inputs : List Tensor)
    (start : σ) : ∃ calls outcome final,
      answerFrom start (g.executeIn step inputs) = (outcome, final) ∧
      answerFrom (start, []) (g.executeIn (recording step) inputs) = (outcome, final, calls) ∧
      g.Run step inputs start calls (outcome.map Prod.snd) final := by
  unfold executeIn
  cases hinputs : g.bindInputs inputs with
  | error e => exact ⟨[], .error e, start, rfl, rfl, .refused hinputs⟩
  | ok bound =>
    rw [answerFrom_bind_of_ok (answerFrom_lift _), answerFrom_bind_of_ok (answerFrom_lift _)]
    obtain ⟨calls, outcome, final, hplain, hnoted, hcases⟩ :=
      run_nodes hg (.start hinputs) (recorded_start hg hinputs) rfl
    rcases hcases with ⟨e, rfl, hrun⟩ | ⟨all, last, rfl, rfl, hdone, hnodes, hrecorded⟩
    · exact ⟨calls, .error e, final, answerFrom_bind_of_error hplain _,
        answerFrom_bind_of_error hnoted _, hrun⟩
    · obtain ⟨values, hvalues, hproduced⟩ := hrecorded.exists_args (hnodes ▸ hg.outputs)
      refine ⟨_, .ok (last, values), final, ?_, ?_, .finished hdone ?_ hproduced⟩
      · rw [answerFrom_bind_of_ok hplain, hvalues]
        rfl
      · refine (answerFrom_bind_of_ok hnoted _).trans ?_
        rw [hvalues]
        rfl
      · rw [hnodes, List.length_map]

/-- The successful calls are those of the first nodes. -/
theorem Performs.nodes_eq (h : g.Performs step inputs start done s) :
    done.map StepCall.node = g.nodes.take done.length := by
  induction h with
  | start => rfl
  | call hdone hnext _ _ _ ih =>
    rw [List.map_append, ih, List.length_append, List.length_singleton, List.take_add_one, hnext]
    rfl

/-- Every node is called at most once, in the order of the nodes, and all are if none fails. -/
theorem Run.nodes_prefix {calls : List (Node × List Datum)}
    {outcome : Except ExecError (List Datum)}
    (h : g.Run step inputs start calls outcome final) :
    calls.map Prod.fst <+: g.nodes ∧
      ∀ values, outcome = .ok values → calls.map Prod.fst = g.nodes := by
  have hasked (done : List StepCall) :
      (done.map StepCall.asked).map Prod.fst = done.map StepCall.node := by
    rw [List.map_map]
    rfl
  have hlast {done : List StepCall} {s : σ} {node : Node} {args : List Datum}
      (hdone : g.Performs step inputs start done s)
      (hnext : g.nodes[done.length]? = some node) :
      (done.map StepCall.asked ++ [(node, args)]).map Prod.fst <+: g.nodes := by
    rw [List.map_append, hasked, hdone.nodes_eq]
    refine ⟨g.nodes.drop (done.length + 1), ?_⟩
    conv_rhs => rw [← List.take_append_drop (done.length + 1) g.nodes, List.take_add_one, hnext]
    rfl
  cases h with
  | refused => exact ⟨List.nil_prefix, nofun⟩
  | failed hdone hnext => exact ⟨hlast hdone hnext, nofun⟩
  | miscounted hdone hnext => exact ⟨hlast hdone hnext, nofun⟩
  | finished hdone hall =>
    rw [hasked, hdone.nodes_eq, hall, List.take_length]
    exact ⟨List.prefix_refl _, fun _ _ => rfl⟩

/-- A step without effects runs a node as an interpreter does. -/
theorem answerFrom_runNodeIn_lift (interpret : Interpreter) (bound : Bindings) (node : Node)
    (start : σ) : answerFrom start (runNodeIn (fun node args => interpret node args) bound node) =
      (runNode interpret bound node, start) := by
  rw [runNode_eq]
  cases hargs : node.inputs.mapM bound.read with
  | error e =>
    unfold runNodeIn
    rw [hargs]
    rfl
  | ok args =>
    rw [answerFrom_runNodeIn hargs, answerFrom_lift, Outcome.bind_of_eq_ok rfl]
    cases interpret node args with
    | error e => rfl
    | ok results =>
      rw [Outcome.bind_of_eq_ok rfl]
      by_cases hcount : results.length = node.outputs.length
      · simp only [Except.bind, if_pos hcount, if_neg (not_not_intro hcount)]
        rfl
      · simp only [Except.bind, if_neg hcount, if_pos hcount]
        rfl

theorem answerFrom_foldlM_lift (interpret : Interpreter) (nodes : List Node) (bound : Bindings)
    (start : σ) :
    answerFrom start (nodes.foldlM (runNodeIn fun node args => interpret node args) bound) =
      (nodes.foldlM (runNode interpret) bound, start) := by
  induction nodes generalizing bound with
  | nil => rfl
  | cons node nodes ih =>
    have hnode := answerFrom_runNodeIn_lift interpret bound node start
    rw [List.foldlM_cons, List.foldlM_cons]
    cases hrun : runNode interpret bound node with
    | error e => exact answerFrom_bind_of_error (hnode.trans (by rw [hrun])) _
    | ok next =>
      rw [answerFrom_bind_of_ok (hnode.trans (by rw [hrun])), ih]
      rfl

/-- A step without effects runs a graph as an interpreter does. -/
theorem answerFrom_executeIn_lift (g : Graph) (interpret : Interpreter) (inputs : List Tensor)
    (start : σ) : answerFrom start (g.executeIn (fun node args => interpret node args) inputs) =
      (g.execute interpret inputs, start) := by
  rw [execute_eq]
  unfold executeIn
  cases hinputs : g.bindInputs inputs with
  | error e => rfl
  | ok bound =>
    have hnodes := answerFrom_foldlM_lift interpret g.nodes bound start
    rw [answerFrom_bind_of_ok (answerFrom_lift _), Outcome.bind_of_eq_ok rfl]
    cases hlast : g.nodes.foldlM (runNode interpret) bound with
    | error e => exact answerFrom_bind_of_error (hnodes.trans (by rw [hlast])) _
    | ok last =>
      rw [answerFrom_bind_of_ok (hnodes.trans (by rw [hlast])), Outcome.bind_of_eq_ok rfl]
      cases g.outputs.mapM last.read <;> rfl

/-! ## Values that are missing -/

theorem checkInput_ne_unbound {input : Nat} {t : Tensor} {w : ValueId} :
    g.checkInput input v t ≠ .error (.unbound w) := by
  intro h
  unfold checkInput at h
  cases htype : g.tensorType? v with
  | none =>
    rw [htype] at h
    cases h
  | some type =>
    rw [htype] at h
    obtain ⟨dtype, shape⟩ := type
    cases dtype <;> cases shape <;> dsimp only at h <;> (repeat' split at h) <;> cases h

/-- Inputs are refused for their number, their types or their extents. -/
theorem bindInputs_ne_unbound : g.bindInputs inputs ≠ .error (.unbound v) := by
  intro h
  unfold bindInputs at h
  by_cases hlen : inputs.length = g.inputs.length
  · rw [if_neg (not_not_intro hlen)] at h
    rcases Outcome.bind_eq_error.mp h with h | ⟨_, -, h⟩
    · obtain ⟨entry, -, h⟩ := Outcome.exists_of_forM_eq_error h
      exact checkInput_ne_unbound h
    · cases h
  · rw [if_pos hlen] at h
    cases h

/-- Only a step reports a value that is not there. -/
theorem Run.exists_step_of_unbound {calls : List (Node × List Datum)}
    (h : g.Run step inputs start calls (.error (.unbound v)) final) :
    ∃ node ∈ g.nodes, ∃ args s, answerFrom s (step node args) = (.error (.unbound v), final) := by
  cases h with
  | refused hinputs => exact absurd hinputs bindInputs_ne_unbound
  | failed hdone hnext hargs hfails => exact ⟨_, List.mem_of_getElem? hnext, _, _, hfails⟩

/-! ## Top theorem -/

/-- A run of an accepted graph calls the step once for every node, in order and until the first
failure, each time in the state that the call before it has left and with what the only definitions
of the operands have produced, and answers what those of the graph outputs have produced.  It makes
no other call and leaves the state as it is otherwise.  It never misses a value: an unbound value is
reported only if the step itself answers so, and neither the reference interpreter nor an engine
does; these two keep no state. -/
theorem execute_reads_definitions (h : g.verify = .ok ()) (inputs : List Tensor) :
    (∀ (σ : Type) (step : Stepper σ) (start : σ), ∃ calls outcome final,
      answerFrom start (g.executeIn step inputs) = (outcome, final) ∧
      answerFrom (start, []) (g.executeIn (recording step) inputs) = (outcome, final, calls) ∧
      g.Run step inputs start calls (outcome.map Prod.snd) final ∧
      calls.map Prod.fst <+: g.nodes ∧
      ∀ result, outcome = .ok result → calls.map Prod.fst = g.nodes) ∧
    (∀ (σ : Type) (step : Stepper σ) (start final : σ) v,
      answerFrom start (g.executeIn step inputs) = (.error (.unbound v), final) →
        ∃ node ∈ g.nodes, ∃ args s,
          answerFrom s (step node args) = (.error (.unbound v), final)) ∧
    (∀ (σ : Type) (interpret : Interpreter) (start : σ),
      answerFrom start (g.executeIn (fun node args => interpret node args) inputs) =
        (g.execute interpret inputs, start)) ∧
    (∀ v, g.execute Reference.interpret inputs ≠ .error (.unbound v)) ∧
    ∀ (A : Accelerator) (p : HybridProgram A) v,
      g.execute (p.step Reference.interpret) inputs ≠ .error (.unbound v) := by
  have hg := (verify_eq_ok.mp h).1
  have hstep : ∀ (σ : Type) (step : Stepper σ) (start final : σ) v,
      answerFrom start (g.executeIn step inputs) = (.error (.unbound v), final) →
        ∃ node ∈ g.nodes, ∃ args s,
          answerFrom s (step node args) = (.error (.unbound v), final) := by
    intro σ step start final v hunbound
    obtain ⟨calls, outcome, final', hplain, -, hrun⟩ := run_executeIn hg step inputs start
    obtain ⟨rfl, rfl⟩ := Prod.mk.inj (hplain.symm.trans hunbound)
    exact hrun.exists_step_of_unbound
  -- an interpreter is a step with a state that says nothing
  have hpure : ∀ (interpret : Interpreter) v, g.execute interpret inputs = .error (.unbound v) →
      ∃ node args, interpret node args = .error (.unbound v) := by
    intro interpret v hunbound
    have hanswer := answerFrom_executeIn_lift g interpret inputs ()
    rw [hunbound] at hanswer
    obtain ⟨node, -, args, _, hfails⟩ := hstep Unit _ () () v hanswer
    exact ⟨node, args, (Prod.mk.inj hfails).1⟩
  refine ⟨fun σ step start => ?_, hstep, fun σ interpret start =>
    answerFrom_executeIn_lift g interpret inputs start, fun v hunbound => ?_,
    fun A p v hunbound => ?_⟩
  · obtain ⟨calls, outcome, final, hplain, hnoted, hrun⟩ := run_executeIn hg step inputs start
    obtain ⟨hearly, hall⟩ := hrun.nodes_prefix
    refine ⟨calls, outcome, final, hplain, hnoted, hrun, hearly, fun result hresult => ?_⟩
    exact hall result.2 (by rw [hresult]; rfl)
  · obtain ⟨node, args, hfails⟩ := hpure _ v hunbound
    exact Reference.interpret_ne_unbound node args v hfails
  · obtain ⟨node, args, hfails⟩ := hpure _ v hunbound
    exact Reference.interpret_ne_unbound node args v
      (HybridProgram.interpret_of_step_eq_unbound hfails)

/-- Both activations are called once, the second with the result of the first; here each passes on
what it is given, and the calls are counted. -/
theorem execute_reads_definitions_activations :
    let counting : Stepper Nat := fun _ args => do
      modify (· + 1)
      return args
    let given : Tensor := ⟨.f32, [2], .f32 #[1, 2]⟩
    activations.verify = .ok () ∧
      ∃ calls, activations.Run counting [given] 0 calls (.ok [.tensor given]) 2 ∧
        calls.map Prod.fst = activations.nodes := by
  intro counting given
  obtain ⟨hruns, -⟩ := execute_reads_definitions verify_activations [given]
  obtain ⟨calls, outcome, final, hplain, -, hrun, -, hall⟩ := hruns Nat counting 0
  have hanswer : ∃ bound, answerFrom 0 (activations.executeIn counting [given]) =
      (.ok (bound, [.tensor given]), 2) := ⟨_, rfl⟩
  obtain ⟨bound, hanswer⟩ := hanswer
  obtain ⟨rfl, rfl⟩ := Prod.mk.inj (hplain.symm.trans hanswer)
  exact ⟨verify_activations, calls, hrun, hall _ rfl⟩

end Graph

end HybridGraph
