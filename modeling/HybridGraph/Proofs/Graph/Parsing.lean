import HybridGraph.Graph.Parser
import HybridGraph.Proofs.Execute.Attributes
import HybridGraph.Proofs.Graph.WellFormed
/-!
# Graphs read from texts

The reader hands out a new id for every node as long as there are ids, and no attribute that it
reads is a tensor: a tensor stands in a node only as the payload of a constant whose result is a
tensor.

    Graph.parse text = .ok g → g.nodes.length < 2 ^ 32 → g.WellFormed   (Graph.wellFormed_of_parse)
    Graph.parse text = .ok g → g.PlainConstants                     (Graph.plainConstants_of_parse)
-/

namespace HybridGraph

/-- A constant whose result is not a tensor holds no tensor. -/
def Graph.PlainConstants (g : Graph) : Prop :=
  ∀ node ∈ g.nodes, node.kind = .constant → ∀ v ∈ node.outputs, g.isTensor v = false →
    ∀ t, node.attr? "value" ≠ some (.tensor t)

namespace Source

variable {s s' : State} {text : List Char}

/-! ## Attributes -/

/-- No attribute is a tensor. -/
def Plain (attrs : AttrList) : Prop := ∀ name t, attrs.get? name ≠ some (.tensor t)

theorem plain_empty : Plain .empty := by
  intro name t h
  cases h

/-- Tensors have no spelling. -/
theorem attr_ne_tensor (t : Tensor) : attr text ≠ .ok (.tensor t) := by
  have hlist : ∀ whole inner, listAttr whole inner ≠ .ok (.tensor t) := by
    intro whole inner h
    unfold listAttr at h
    dsimp only at h
    split at h
    · cases h
    · split at h <;> cases h
  intro h
  unfold attr at h
  dsimp only at h
  split at h
  · cases h
  · split at h
    · cases h
    · split at h
      · cases h
      · split at h
        · cases h
        · split at h
          · exact hlist _ _ h
          · split at h <;> cases h

theorem plain_attrEntry {attrs attrs' : AttrList} (hplain : Plain attrs)
    (h : attrEntry attrs text = .ok attrs') : Plain attrs' := by
  unfold attrEntry at h
  split at h
  · cases h
  · next key value _ =>
    obtain ⟨a, ha, h⟩ := Outcome.bind_eq_ok.mp h
    obtain rfl := Outcome.pure_eq_ok.mp h
    intro name t hget
    rw [AttrList.get?, AttrList.insert, lookup_insertEntry] at hget
    split at hget
    · obtain rfl := Option.some.inj hget
      exact attr_ne_tensor t ha
    · exact hplain name t hget

theorem plain_call {c : Source.Call} (h : call s text = .ok c) : Plain c.attrs := by
  unfold call at h
  extract_lets isOpening kindText tail rest at h
  obtain ⟨-, h⟩ := Outcome.guard_eq_ok.mp h
  obtain ⟨kind, -, h⟩ := Outcome.bind_eq_ok.mp h
  extract_lets finish at h
  have hfinish : ∀ attrs after, finish (attrs, after) = .ok c → c.attrs = attrs := by
    intro attrs after h
    obtain ⟨-, h⟩ := Outcome.guard_eq_ok.mp h
    split at h
    · obtain ⟨-, h⟩ := Outcome.guard_eq_ok.mp h
      obtain ⟨inputs, -, h⟩ := Outcome.bind_eq_ok.mp h
      rw [← Outcome.pure_eq_ok.mp h]
    · cases h
  split at h
  · split at h
    · obtain ⟨attrs, hattrs, h⟩ := Outcome.bind_eq_ok.mp h
      rw [hfinish _ _ h]
      exact Outcome.foldlM_induction plain_attrEntry plain_empty hattrs
    · cases h
  · rw [hfinish _ _ h]
    exact plain_empty

/-! ## Statements -/

/-- A node whose results are being defined.  Nodes are not added yet; before the first result the
attributes are those of the text, and a single result decides what a constant may hold. -/
structure Draft (g : Graph) (acc : State × Call × List ValueId) : Prop where
  nodes : acc.1.graph.nodes = g.nodes
  nextNode : acc.1.graph.nextNode = g.nextNode
  grows : g.Grows acc.1.graph
  plain : acc.2.2 = [] → Plain acc.2.1.attrs
  payload : acc.2.1.kind = .constant → ∀ v, acc.2.2 = [v] → v.index < acc.1.graph.values.size ∧
    (acc.1.graph.isTensor v = false → ∀ t, acc.2.1.attrs.get? "value" ≠ some (.tensor t))

theorem graph_of_define {name : String} {v : ValueId} (h : s.define name v = .ok s') :
    s'.graph = s.graph := by
  unfold State.define at h
  split at h
  · cases h
  · rw [← Except.ok.inj h]

theorem isTensor_newValue (g : Graph) (type : ValueType) (name : Option String) :
    (g.newValue type name).1.isTensor (g.newValue type name).2 = type.tensor?.isSome := by
  unfold Graph.newValue Graph.isTensor Graph.tensorType? Graph.type? Graph.value?
  dsimp only
  rw [Array.getElem?_push_size]
  rfl

/-- The type that a result gets, and its operation: a tensor constant takes its payload. -/
inductive Resolved (call : Call) : ValueType → ValueType → Call → Prop
  | payload (declared : TensorType) (t : Tensor) (hkind : call.kind = .constant) :
    Resolved call (.tensor declared) (.tensor (.of t.dtype t.dims))
      { call with attrs := call.attrs.insert "value" (.tensor t) }
  | plain (declared : ValueType) (hplain : ∀ t, call.kind = .constant → declared ≠ .tensor t) :
    Resolved call declared declared call

/-- A result is a new value with a new name. -/
theorem exists_of_defineResult {call : Call} {outputs : List ValueId} {name : String}
    {declared : ValueType} {acc : State × Call × List ValueId}
    (h : defineResult (s, call, outputs) (name, declared) = .ok acc) :
    ∃ type call' next, Resolved call declared type call' ∧
      State.define { s with graph := (s.graph.newValue type (some name)).1 } name
        (s.graph.newValue type (some name)).2 = .ok next ∧
      acc = (next, call', outputs ++ [(s.graph.newValue type (some name)).2]) := by
  have hfinish : ∀ type call', Resolved call declared type call' →
      (State.define { s with graph := (s.graph.newValue type (some name)).1 } name
        (s.graph.newValue type (some name)).2 >>= fun next =>
          pure (next, call', outputs ++ [(s.graph.newValue type (some name)).2])) = .ok acc →
      ∃ type call' next, Resolved call declared type call' ∧
        State.define { s with graph := (s.graph.newValue type (some name)).1 } name
          (s.graph.newValue type (some name)).2 = .ok next ∧
        acc = (next, call', outputs ++ [(s.graph.newValue type (some name)).2]) := by
    intro type call' hresolved h
    obtain ⟨next, hnext, h⟩ := Outcome.bind_eq_ok.mp h
    exact ⟨type, call', next, hresolved, hnext, (Outcome.pure_eq_ok.mp h).symm⟩
  unfold defineResult at h
  dsimp only at h
  split at h
  · next declared hkind =>
    obtain ⟨tensor, -, h⟩ := Outcome.bind_eq_ok.mp h
    exact hfinish _ _ (.payload declared tensor hkind) h
  · next hother => exact hfinish _ _ (.plain _ hother) h

theorem draft_defineResult {g : Graph} {acc acc' : State × Call × List ValueId}
    {result : String × ValueType} (hdraft : Draft g acc)
    (h : defineResult acc result = .ok acc') : Draft g acc' := by
  obtain ⟨s, call, outputs⟩ := acc
  obtain ⟨name, declared⟩ := result
  obtain ⟨type, call', next, hresolved, hnext, rfl⟩ := exists_of_defineResult h
  have hgraph := graph_of_define hnext
  refine ⟨by rw [hgraph]; exact hdraft.nodes, by rw [hgraph]; exact hdraft.nextNode, ?_, ?_, ?_⟩
  · rw [hgraph]
    exact hdraft.grows.trans (.of_push rfl)
  · intro hnil
    simp at hnil
  · intro hconstant v hv
    rcases List.append_eq_singleton_iff.mp hv with ⟨hnil, hv⟩ | ⟨-, hv⟩
    · obtain rfl := (List.cons.inj hv).1
      dsimp only
      rw [hgraph, isTensor_newValue]
      refine ⟨?_, fun htensor => ?_⟩
      · show s.graph.values.size < (s.graph.values.push _).size
        rw [Array.size_push]
        exact Nat.lt_succ_self _
      · cases hresolved with
        | payload => cases htensor
        | plain => exact hdraft.plain hnil "value"
    · cases hv

/-- What holds of the graph after every line.  As long as there are ids they are counted. -/
structure Sound (g : Graph) : Prop where
  issued : g.nodes.length < 2 ^ 32 →
    g.nextNode = g.nodes.length ∧ ∀ node ∈ g.nodes, node.id.number < g.nextNode
  constants : ∀ node ∈ g.nodes, node.kind = .constant → ∀ v, node.outputs = [v] →
    v.index < g.values.size ∧
      (g.isTensor v = false → ∀ t, node.attr? "value" ≠ some (.tensor t))

theorem sound_pushNode {g : Graph} {s : State} {call : Call} {outputs : List ValueId}
    {scope : Option String} (hsound : Sound g) (hdraft : Draft g (s, call, outputs)) :
    Sound (s.graph.pushNode ⟨⟨0⟩, call.kind, call.inputs, outputs, call.attrs, scope⟩).1 := by
  have hnodes : ∀ n ∈ (s.graph.pushNode
      ⟨⟨0⟩, call.kind, call.inputs, outputs, call.attrs, scope⟩).1.nodes, n ∈ g.nodes ∨
        n = ⟨⟨g.nextNode⟩, call.kind, call.inputs, outputs, call.attrs, scope⟩ := by
    intro n hn
    rcases List.mem_append.mp hn with hn | hn
    · exact .inl (hdraft.nodes ▸ hn)
    · rw [← hdraft.nextNode]
      exact .inr (List.mem_singleton.mp hn)
  refine ⟨fun hroom => ?_, fun n hn hkind v hv => ?_⟩
  · have hlength : (s.graph.pushNode
        ⟨⟨0⟩, call.kind, call.inputs, outputs, call.attrs, scope⟩).1.nodes.length =
          g.nodes.length + 1 := by
      show (s.graph.nodes ++ [_]).length = _
      rw [hdraft.nodes, List.length_append, List.length_singleton]
    rw [hlength] at hroom ⊢
    obtain ⟨hcounted, hissued⟩ := hsound.issued (by omega)
    have hnext : NodeId.next s.graph.nextNode = g.nextNode + 1 := by
      rw [hdraft.nextNode]
      exact NodeId.next_eq (by omega)
    show NodeId.next s.graph.nextNode = _ ∧
      ∀ n : Node, n ∈ _ → n.id.number < NodeId.next s.graph.nextNode
    rw [hnext]
    refine ⟨by rw [hcounted], fun n hn => ?_⟩
    rcases hnodes n hn with hn | rfl
    · exact Nat.lt_succ_of_lt (hissued n hn)
    · exact Nat.lt_succ_self _
  · rcases hnodes n hn with hn | rfl
    · obtain ⟨hlt, hplain⟩ := hsound.constants n hn hkind v hv
      refine ⟨Nat.lt_of_lt_of_le hlt hdraft.grows.size_le, fun htensor => hplain ?_⟩
      rw [← hdraft.grows.isTensor hlt]
      exact htensor
    · exact hdraft.payload hkind v hv

/-- A statement is an operation, its results and its scope. -/
theorem exists_of_statement (h : statement s text = .ok s') :
    ∃ callText parsed scope, ∃ results : List (String × ValueType), ∃ acc,
      call s callText = .ok parsed ∧ results.foldlM defineResult (s, parsed, []) = .ok acc ∧
      s' = { acc.1 with graph := (acc.1.graph.pushNode
        ⟨⟨0⟩, acc.2.1.kind, acc.2.1.inputs, acc.2.2, acc.2.1.attrs, scope⟩).1 } := by
  have hfinish : ∀ (results : List (String × ValueType)) callText scope,
      (call s callText >>= fun parsed =>
      results.foldlM defineResult (s, parsed, []) >>= fun acc =>
        pure { acc.1 with graph := (acc.1.graph.pushNode
          ⟨⟨0⟩, acc.2.1.kind, acc.2.1.inputs, acc.2.2, acc.2.1.attrs, scope⟩).1 }) = .ok s' →
      ∃ callText parsed scope, ∃ results : List (String × ValueType), ∃ acc,
        call s callText = .ok parsed ∧ results.foldlM defineResult (s, parsed, []) = .ok acc ∧
        s' = { acc.1 with graph := (acc.1.graph.pushNode
          ⟨⟨0⟩, acc.2.1.kind, acc.2.1.inputs, acc.2.2, acc.2.1.attrs, scope⟩).1 } := by
    intro results callText scope h
    obtain ⟨parsed, hparsed, h⟩ := Outcome.bind_eq_ok.mp h
    obtain ⟨acc, hacc, h⟩ := Outcome.bind_eq_ok.mp h
    exact ⟨callText, parsed, scope, results, acc, hparsed, hacc, (Outcome.pure_eq_ok.mp h).symm⟩
  unfold statement at h
  dsimp only at h
  -- with a scope and without one
  split at h
  all_goals
    dsimp only at h
    split at h
    · split at h
      · obtain ⟨results, -, h⟩ := Outcome.bind_eq_ok.mp h
        exact hfinish results _ _ h
      · cases h
    · exact hfinish [] _ _ h

theorem sound_statement (hsound : Sound s.graph) (h : statement s text = .ok s') :
    Sound s'.graph := by
  obtain ⟨_, parsed, _, _, _, hparsed, hacc, rfl⟩ := exists_of_statement h
  have hstart : Draft s.graph (s, parsed, []) := by
    refine ⟨rfl, rfl, .of_eq rfl, fun _ => plain_call hparsed, fun _ v hv => ?_⟩
    cases hv
  exact sound_pushNode hsound (Outcome.foldlM_induction draft_defineResult hstart hacc)

/-- What every statement keeps is kept by all lines after the header. -/
theorem body_induction {p : State → Prop}
    (hstep : ∀ {s text s'}, p s → statement s text = .ok s' → p s')
    {outputs : Option (List ValueId)} {lines : List (Nat × List Char)}
    {result : State × Option (List ValueId)} (hs : p s)
    (h : body s outputs lines = .ok result) : p result.1 := by
  induction lines generalizing s outputs with
  | nil =>
    rw [body] at h
    exact Except.ok.inj h ▸ hs
  | cons line lines ih =>
    cases outputs with
    | some outputs => cases h
    | none =>
      rw [body] at h
      split at h
      · obtain ⟨values, -, h⟩ := Outcome.bind_eq_ok.mp h
        exact ih hs h
      · obtain ⟨next, hnext, h⟩ := Outcome.bind_eq_ok.mp h
        exact ih (hstep hs (Outcome.mapError_eq_ok.mp hnext)) h

/-- What holds at the start and is kept by every parameter holds after the header. -/
theorem header_induction {p : State → Prop} (hstart : ∀ name, p ⟨Graph.empty name, []⟩)
    (hstep : ∀ {s text s'}, p s → parameter s text = .ok s' → p s')
    (h : header text = .ok s) : p s := by
  unfold header at h
  dsimp only at h
  split at h
  · obtain ⟨-, h⟩ := Outcome.guard_eq_ok.mp h
    split at h
    · obtain ⟨-, h⟩ := Outcome.guard_eq_ok.mp h
      exact Outcome.foldlM_induction hstep (hstart _) h
    · cases h
  · cases h

/-- A parameter is a new input with a new name. -/
theorem exists_of_parameter (h : parameter s text = .ok s') : ∃ name type,
    State.define { s with graph := (s.graph.addInput type name).1 } name
      (s.graph.addInput type name).2 = .ok s' := by
  obtain ⟨⟨name, _⟩, -, h⟩ := Outcome.bind_eq_ok.mp h
  obtain ⟨type, -, h⟩ := Outcome.bind_eq_ok.mp h
  exact ⟨name, type, h⟩

/-- Parameters are no nodes. -/
theorem nodes_of_header (h : header text = .ok s) : s.graph.nodes = [] := by
  refine header_induction (p := fun s => s.graph.nodes = []) (fun _ => rfl) (fun hs hstep => ?_) h
  obtain ⟨name, type, hdefine⟩ := exists_of_parameter hstep
  rw [graph_of_define hdefine]
  exact hs

theorem nextNode_of_header (h : header text = .ok s) : s.graph.nextNode = 0 := by
  refine header_induction (p := fun s => s.graph.nextNode = 0) (fun _ => rfl)
    (fun hs hstep => ?_) h
  obtain ⟨name, type, hdefine⟩ := exists_of_parameter hstep
  rw [graph_of_define hdefine]
  exact hs

end Source

open Source

/-- A graph that is read has a header, a body and a line for its outputs, and it is accepted. -/
theorem Graph.exists_of_parse {text : String} {g : Graph} (h : Graph.parse text = .ok g) :
    ∃ line start lines s outputs, header line = .ok start ∧
      body start none lines = .ok (s, some outputs) ∧ g = { s.graph with outputs := outputs } ∧
        g.verify = .ok () := by
  obtain ⟨parsed, hparsed, h⟩ := Outcome.bind_eq_ok.mp h
  obtain rfl := Outcome.pure_eq_ok.mp h
  unfold ParsedGraph.parse at hparsed
  dsimp only at hparsed
  split at hparsed
  · cases hparsed
  · obtain ⟨start, hstart, hparsed⟩ := Outcome.bind_eq_ok.mp hparsed
    obtain ⟨⟨s, outputs?⟩, hbody, hparsed⟩ := Outcome.bind_eq_ok.mp hparsed
    dsimp only at hparsed
    split at hparsed
    · obtain ⟨⟨⟩, hverify, hparsed⟩ := Outcome.bind_eq_ok.mp hparsed
      rw [← Outcome.pure_eq_ok.mp hparsed]
      exact ⟨_, start, _, s, _, Outcome.mapError_eq_ok.mp hstart, hbody, rfl,
        Outcome.mapError_eq_ok.mp hverify⟩
    · cases hparsed

/-- What a text is read as is accepted, and it was sound before the last check. -/
theorem Graph.of_parse {text : String} {g : Graph} (h : Graph.parse text = .ok g) :
    g.verify = .ok () ∧ Sound g := by
  obtain ⟨_, start, _, s, _, hstart, hbody, rfl, hverify⟩ := exists_of_parse h
  have hnodes := nodes_of_header hstart
  have hempty : Sound start.graph := by
    refine ⟨fun _ => ?_, fun n hn => ?_⟩
    · rw [hnodes]
      exact ⟨nextNode_of_header hstart, List.forall_mem_nil _⟩
    · rw [hnodes] at hn
      cases hn
  have hsound := body_induction (p := fun s => Sound s.graph) sound_statement hempty hbody
  exact ⟨hverify, ⟨hsound.issued, hsound.constants⟩⟩

/-! ## Top theorems -/

/-- A graph that is read from a text is well-formed, unless it has more nodes than there are ids. -/
theorem Graph.wellFormed_of_parse {text : String} {g : Graph} (h : Graph.parse text = .ok g)
    (hroom : g.nodes.length < 2 ^ 32) : g.WellFormed := by
  obtain ⟨hverify, hsound⟩ := of_parse h
  exact wellFormed_iff.mpr ⟨hverify, (hsound.issued hroom).2⟩

/-- A graph that is read from a text holds tensors in tensor constants only. -/
theorem Graph.plainConstants_of_parse {text : String} {g : Graph} (h : Graph.parse text = .ok g) :
    g.PlainConstants := by
  intro node hn hkind v hv htensor
  obtain ⟨hverify, hsound⟩ := of_parse h
  obtain ⟨out, hout⟩ :=
    exists_output_of_checkNode ((verify_eq_ok.mp hverify).2 node hn) (by rw [hkind]; rfl)
  obtain rfl : v = out := by simpa [hout] using hv
  exact (hsound.constants node hn hkind v hout).2 htensor

end HybridGraph
