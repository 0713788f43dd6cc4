import HybridGraph.Proofs.Graph.Parsing
/-!
# How the reader numbers values and nodes

The values and nodes of a graph that was read are numbered in the order in which its text introduces
them, the nodes by the counter from zero on, and every value has a name of its own.  Tensors are the
payloads of the constants whose result is a tensor.

    Graph.parse text = .ok g → g.Numbered                                 (Graph.numbered_of_parse)
    Graph.parse text = .ok g → node ∈ g.nodes → Payloads g node           (Graph.payloads_of_parse)
-/

namespace HybridGraph

namespace Graph

variable {g : Graph} {v : ValueId}

/-- The name of a value. -/
def name? (g : Graph) (v : ValueId) : Option String := (g.value? v).bind ValueInfo.name

/-- The id that a new graph gives to its node at a place. -/
def nthId (place : Nat) : NodeId := ⟨NodeId.nextAfter 0 place⟩

/-- Values and nodes are numbered in the order in which a text introduces them, and all values have
names of their own. -/
structure Numbered (g : Graph) : Prop where
  values : definedBy g.inputs g.nodes = (List.range g.values.size).map ValueId.mk
  nodes : g.nodes.map Node.id = (List.range g.nodes.length).map nthId
  nextNode : g.nextNode = NodeId.nextAfter 0 g.nodes.length
  named : ∀ v, v.index < g.values.size → ∃ name, g.name? v = some name
  distinct : ∀ v w name, g.name? v = some name → g.name? w = some name → v = w

namespace Numbered

/-- A value comes after as many others as its number says. -/
theorem index_eq (h : g.Numbered) {front rest : List ValueId}
    (hsplit : definedBy g.inputs g.nodes = front ++ v :: rest) : v.index = front.length := by
  have hv : (definedBy g.inputs g.nodes)[front.length]? = some v := by
    rw [hsplit, List.getElem?_append_right (Nat.le_refl _), Nat.sub_self, List.getElem?_cons_zero]
  rw [h.values, List.getElem?_map, Option.map_eq_some_iff] at hv
  obtain ⟨i, hi, rfl⟩ := hv
  obtain ⟨_, hi⟩ := List.getElem?_eq_some_iff.mp hi
  rw [List.getElem_range] at hi
  exact hi.symm

theorem index_lt (h : g.Numbered) (hv : v ∈ definedBy g.inputs g.nodes) :
    v.index < g.values.size := by
  rw [h.values] at hv
  obtain ⟨i, hi, rfl⟩ := List.mem_map.mp hv
  exact List.mem_range.mp hi

/-- The number of a node is that of its place. -/
theorem id_eq (h : g.Numbered) {front back : List Node} {node : Node}
    (hsplit : g.nodes = front ++ node :: back) : node.id = nthId front.length := by
  have hid : (g.nodes.map Node.id)[front.length]? = some node.id := by
    rw [hsplit, List.map_append, List.getElem?_append_right (by simp)]
    simp
  rw [h.nodes, List.getElem?_map, Option.map_eq_some_iff] at hid
  obtain ⟨i, hi, hid⟩ := hid
  obtain ⟨_, hi⟩ := List.getElem?_eq_some_iff.mp hi
  rw [List.getElem_range] at hi
  rw [← hid, ← hi]

end Numbered

theorem name?_push {g' : Graph} {type : ValueType} {name : Option String}
    (hvalues : g'.values = g.values.push ⟨type, name⟩) (v : ValueId) :
    g'.name? v = if v.index = g.values.size then name else g.name? v := by
  rw [name?, value?, hvalues, Array.getElem?_push]
  split <;> rfl

theorem lt_of_name? {name : String} (h : g.name? v = some name) : v.index < g.values.size := by
  obtain ⟨info, hinfo, -⟩ := Option.bind_eq_some_iff.mp h
  exact (Array.getElem?_eq_some_iff.mp hinfo).1

end Graph

namespace Source

open HybridGraph.Graph

variable {s s' : State} {text : List Char} {v : ValueId}

/-! ## Payloads -/

/-- Tensors are the payloads of the constants whose result is a tensor. -/
structure Payloads (g : Graph) (node : Node) : Prop where
  plain : node.kind ≠ .constant → Plain node.attrs
  tensor : node.kind = .constant → ∀ v, node.outputs = [v] → ∀ name t,
    node.attrs.get? name = some (.tensor t) →
      name = "value" ∧ g.typeOf v = .tensor (.of t.dtype t.dims)
  constant : node.kind = .constant → ∀ v, node.outputs = [v] → ∀ type, g.typeOf v = .tensor type →
    ∃ t, node.attrs.get? "value" = some (.tensor t)

/-- Only the types of the results matter. -/
theorem Payloads.congr {g g' : Graph} {node : Node} (h : Payloads g node)
    (htypes : ∀ v ∈ node.outputs, g'.typeOf v = g.typeOf v) : Payloads g' node := by
  refine ⟨h.plain, fun hkind v hv => ?_, fun hkind v hv => ?_⟩
  · rw [htypes v (hv ▸ List.mem_singleton_self v)]
    exact h.tensor hkind v hv
  · rw [htypes v (hv ▸ List.mem_singleton_self v)]
    exact h.constant hkind v hv

/-! ## Numbers and names -/

/-- Values and nodes are numbered as the reader meets them, the results of the node that is being
read last, and every name stands for its value. -/
structure Counted (s : State) (outputs : List ValueId) : Prop where
  values : definedBy s.graph.inputs s.graph.nodes ++ outputs =
    (List.range s.graph.values.size).map ValueId.mk
  nodes : s.graph.nodes.map Node.id = (List.range s.graph.nodes.length).map nthId
  nextNode : s.graph.nextNode = NodeId.nextAfter 0 s.graph.nodes.length
  named : ∀ v, v.index < s.graph.values.size → ∃ name, s.graph.name? v = some name
  names : ∀ name v, s.names.lookup name = some v ↔ s.graph.name? v = some name

theorem counted_empty (name : String) : Counted ⟨Graph.empty name, []⟩ [] where
  values := rfl
  nodes := rfl
  nextNode := rfl
  named v hv := absurd hv (Nat.not_lt_zero _)
  names name v := by
    constructor
    · intro h
      cases h
    · intro h
      exact absurd (lt_of_name? h) (Nat.not_lt_zero _)

theorem define_eq_ok {name : String} : s.define name v = .ok s' ↔
    s.names.lookup name = none ∧ ⟨s.graph, (name, v) :: s.names⟩ = s' := by
  unfold State.define
  cases s.names.lookup name with
  | none => simp
  | some w => simp

/-- A new value comes after all others, and its name is new. -/
theorem Counted.push {outputs outputs' : List ValueId} (h : Counted s outputs) {g' : Graph}
    {type : ValueType} {name : String}
    (hvalues : g'.values = s.graph.values.push ⟨type, some name⟩)
    (hnodes : g'.nodes = s.graph.nodes) (hnext : g'.nextNode = s.graph.nextNode)
    (hdefined : definedBy g'.inputs g'.nodes ++ outputs' =
      definedBy s.graph.inputs s.graph.nodes ++ outputs ++ [⟨s.graph.values.size⟩])
    (hdefine : State.define ⟨g', s.names⟩ name ⟨s.graph.values.size⟩ = .ok s') :
    Counted s' outputs' := by
  obtain ⟨hnew, rfl⟩ := define_eq_ok.mp hdefine
  have hsize : g'.values.size = s.graph.values.size + 1 := by rw [hvalues, Array.size_push]
  refine ⟨?_, by rw [hnodes]; exact h.nodes, by rw [hnodes, hnext]; exact h.nextNode,
    fun v hv => ?_, fun other v => ?_⟩
  · rw [hdefined, h.values, hsize, List.range_succ, List.map_append, List.map_singleton]
  · rw [name?_push hvalues]
    split
    · exact ⟨name, rfl⟩
    · next hne =>
      have hlt : v.index < g'.values.size := hv
      exact h.named v (by omega)
  · show ((name, _) :: s.names).lookup other = some v ↔ g'.name? v = some other
    rw [lookup_cons_eq_ite, name?_push hvalues]
    by_cases hlast : v.index = s.graph.values.size
    · have hv : v = ⟨s.graph.values.size⟩ := congrArg ValueId.mk hlast
      rw [if_pos hlast, ← hv]
      split
      · next heq => exact iff_of_true rfl (congrArg some heq.symm)
      · next hne =>
        refine iff_of_false (fun hlookup => ?_) fun hname => hne (Option.some.inj hname).symm
        have hlt := lt_of_name? ((h.names other v).mp hlookup)
        omega
    · rw [if_neg hlast]
      split
      · next heq =>
        subst heq
        refine iff_of_false (fun hv => hlast (congrArg ValueId.index (Option.some.inj hv)).symm)
          fun hname => ?_
        rw [← h.names other v, hnew] at hname
        cases hname
      · exact h.names other v

/-! ## Statements -/

/-- A node whose results are being defined, with what is known of it so far. -/
structure Underway (g : Graph) (acc : State × Call × List ValueId) : Prop extends Draft g acc where
  counted : Counted acc.1 acc.2.2
  payloads : Payloads acc.1.graph
    ⟨⟨0⟩, acc.2.1.kind, acc.2.1.inputs, acc.2.2, acc.2.1.attrs, none⟩

theorem typeOf_newValue (g : Graph) (type : ValueType) (name : Option String) :
    (g.newValue type name).1.typeOf (g.newValue type name).2 = type := by
  unfold Graph.newValue Graph.typeOf Graph.type? Graph.value?
  dsimp only
  rw [Array.getElem?_push_size]
  rfl

theorem underway_defineResult {g : Graph} {acc acc' : State × Call × List ValueId}
    {result : String × ValueType} (hunderway : Underway g acc)
    (h : defineResult acc result = .ok acc') : Underway g acc' := by
  have hdraft := draft_defineResult hunderway.toDraft h
  obtain ⟨s, call, outputs⟩ := acc
  obtain ⟨name, declared⟩ := result
  obtain ⟨type, call', next, hresolved, hnext, rfl⟩ := exists_of_defineResult h
  have hvalues : (s.graph.newValue type (some name)).1.values =
      s.graph.values.push ⟨type, some name⟩ := rfl
  have hcounted := hunderway.counted.push hvalues rfl rfl (List.append_assoc _ _ _).symm hnext
  refine ⟨hdraft, hcounted, ?_⟩
  have htype := typeOf_newValue s.graph type (some name)
  have hgraph := graph_of_define hnext
  -- the payload is decided by the first result
  have hfirst : ∀ v, outputs ++ [(s.graph.newValue type (some name)).2] = [v] →
      Plain call.attrs ∧ next.graph.typeOf v = type := by
    intro v hv
    rcases List.append_eq_singleton_iff.mp hv with ⟨hnil, hv⟩ | ⟨-, hv⟩
    · rw [← (List.cons.inj hv).1, hgraph]
      exact ⟨hunderway.plain hnil, htype⟩
    · cases hv
  cases hresolved with
  | payload declared t hkind =>
    refine ⟨fun hne => absurd hkind hne, fun _ v hv other t' hget => ?_, fun _ v hv _ _ => ?_⟩
    · obtain ⟨hplain, htype⟩ := hfirst v hv
      dsimp only at hget
      rw [AttrList.get?, AttrList.insert, lookup_insertEntry] at hget
      split at hget
      · next heq =>
        obtain rfl := Attr.tensor.inj (Option.some.inj hget)
        exact ⟨heq, htype⟩
      · exact absurd hget (hplain other t')
    · refine ⟨t, ?_⟩
      dsimp only
      rw [AttrList.get?, AttrList.insert, lookup_insertEntry, if_pos rfl]
  | plain declared hplain =>
    refine ⟨hunderway.payloads.plain, fun _ v hv other t hget => ?_,
      fun hkind v hv type htensor => ?_⟩
    · exact absurd hget ((hfirst v hv).1 other t)
    · exact absurd ((hfirst v hv).2.symm.trans htensor) (hplain type hkind)

/-- The reader between two lines. -/
structure Settled (s : State) : Prop where
  counted : Counted s []
  payloads : ∀ node ∈ s.graph.nodes, Payloads s.graph node

theorem settled_statement (hsettled : Settled s) (h : statement s text = .ok s') :
    Settled s' := by
  obtain ⟨_, parsed, scope, _, ⟨t, call, outputs⟩, hparsed, hacc, rfl⟩ := exists_of_statement h
  have hstart : Underway s.graph (s, parsed, []) := by
    have hplain := plain_call hparsed
    refine ⟨⟨rfl, rfl, .of_eq rfl, fun _ => hplain, fun _ v hv => ?_⟩, hsettled.counted,
      fun _ => hplain, fun _ v hv => ?_, fun _ v hv => ?_⟩ <;> cases hv
  have hunderway := Outcome.foldlM_induction underway_defineResult hstart hacc
  have hcounted := hunderway.counted
  refine ⟨⟨?_, ?_, ?_, hcounted.named, hcounted.names⟩, fun node hn => ?_⟩
  · show definedBy t.graph.inputs (t.graph.nodes ++ [_]) ++ [] = _
    rw [definedBy_append, List.flatMap_singleton, List.append_nil]
    exact hcounted.values
  · show (t.graph.nodes ++ [_]).map Node.id = (List.range (t.graph.nodes ++ [_]).length).map _
    rw [List.map_append, hcounted.nodes, List.length_append, List.length_singleton,
      List.range_succ, List.map_append, List.map_singleton, List.map_singleton, nthId,
      ← hcounted.nextNode]
  · show NodeId.next t.graph.nextNode = NodeId.nextAfter 0 (t.graph.nodes ++ [_]).length
    rw [hcounted.nextNode, List.length_append, List.length_singleton]
    rfl
  · rcases List.mem_append.mp hn with hn | hn
    · have hn : node ∈ s.graph.nodes := hunderway.nodes ▸ hn
      refine (hsettled.payloads node hn).congr fun v hv => ?_
      have hdefined : v ∈ definedBy s.graph.inputs s.graph.nodes ++ [] := by
        rw [List.append_nil]
        exact mem_definedBy.mpr (.inr ⟨node, hn, hv⟩)
      rw [hsettled.counted.values] at hdefined
      obtain ⟨i, hi, rfl⟩ := List.mem_map.mp hdefined
      exact hunderway.grows.typeOf (List.mem_range.mp hi)
    · obtain rfl := List.mem_singleton.mp hn
      exact ⟨hunderway.payloads.plain, hunderway.payloads.tensor, hunderway.payloads.constant⟩

theorem settled_header (h : header text = .ok s) : Settled s := by
  have hcounted : Counted s [] ∧ s.graph.nodes = [] := by
    refine header_induction (p := fun s => Counted s [] ∧ s.graph.nodes = [])
      (fun name => ⟨counted_empty name, rfl⟩) (fun {s text s'} hs hstep => ?_) h
    obtain ⟨hcounted, hnodes⟩ := hs
    obtain ⟨name, type, hdefine⟩ := exists_of_parameter hstep
    have hvalues : (s.graph.addInput type name).1.values =
        s.graph.values.push ⟨type, some name⟩ := rfl
    refine ⟨hcounted.push hvalues rfl rfl ?_ hdefine, ?_⟩
    · show definedBy (s.graph.inputs ++ [_]) s.graph.nodes ++ [] = _
      simp [hnodes, definedBy]
    · rw [graph_of_define hdefine]
      exact hnodes
  exact ⟨hcounted.1, fun node hn => by rw [hcounted.2] at hn; cases hn⟩

end Source

/-! ## Top theorems -/

theorem Graph.settled_of_parse {text : String} {g : Graph} (h : Graph.parse text = .ok g) :
    ∃ s outputs, g = { s.graph with outputs := outputs } ∧ Source.Settled s := by
  obtain ⟨_, start, _, s, outputs, hstart, hbody, hg, -⟩ := exists_of_parse h
  exact ⟨s, outputs, hg, Source.body_induction Source.settled_statement
    (Source.settled_header hstart) hbody⟩

/-- Values and nodes of a graph that is read are numbered in the order of the text. -/
theorem Graph.numbered_of_parse {text : String} {g : Graph} (h : Graph.parse text = .ok g) :
    g.Numbered := by
  obtain ⟨s, outputs, rfl, hcounted, -⟩ := settled_of_parse h
  refine ⟨?_, hcounted.nodes, hcounted.nextNode, hcounted.named, fun v w name hv hw => ?_⟩
  · have hvalues := hcounted.values
    rwa [List.append_nil] at hvalues
  · have hlookup := (hcounted.names name v).mpr hv
    rw [(hcounted.names name w).mpr hw] at hlookup
    exact (Option.some.inj hlookup).symm

/-- A graph that is read holds tensors as the payloads of tensor constants. -/
theorem Graph.payloads_of_parse {text : String} {g : Graph} (h : Graph.parse text = .ok g)
    {node : Node} (hn : node ∈ g.nodes) : Source.Payloads g node := by
  obtain ⟨s, outputs, rfl, -, hpayloads⟩ := settled_of_parse h
  obtain ⟨hplain, htensor, hconstant⟩ := hpayloads node hn
  exact ⟨hplain, htensor, hconstant⟩

end HybridGraph
