import HybridGraph.Lowering.Decomposition
import HybridGraph.Proofs.Lowering.Preservation
/-!
# Emitting nodes in front of a node

An expansion stands between a front part of the node list and the rest.  Emitting a node that reads
what the front part defines moves it into the front part, and as long as there are ids the graph
stays well-formed (`Ahead.emit`).  Every decomposition is a chain of such emissions, each reading
operands of the decomposed node or results emitted before, and the nodes that it emits can be
written down:

    Chain g before rest scope [] e → x ∈ definedBy g.inputs before → g.nextNode + 2 < 2 ^ 32 →
      Yields g before rest scope (siluNodes g scope x) 1 (emitSilu e x type outType)  (yields_silu)
-/

namespace HybridGraph

namespace Expansion

variable {g : Graph} {front rest : List Node} {e : Expansion}

/-- The node that an emission adds. -/
def emitted (e : Expansion) (kind : OpKind) (inputs : List ValueId) (attrs : AttrList) : Node :=
  ⟨⟨e.graph.nextNode⟩, kind, inputs, [⟨e.graph.values.size⟩], attrs, e.scope⟩

/-- An expansion that began in `g` stands between `front` and `rest`. -/
structure Ahead (g : Graph) (front rest : List Node) (e : Expansion) : Prop where
  kept : g.Extends e.graph
  nodes : e.graph.nodes = front ++ rest
  position : e.position = front.length

/-! ## One emission -/

theorem emit_graph (e : Expansion) (kind : OpKind) (inputs : List ValueId) (type : ValueType)
    (attrs : AttrList) : (e.emit kind inputs type attrs).1.graph = { e.graph with
      values := e.graph.values.push ⟨type, none⟩
      nodes := e.graph.nodes.insertIdx (min e.position e.graph.nodes.length)
        (e.emitted kind inputs attrs)
      nextNode := NodeId.next e.graph.nextNode } := rfl

theorem insertIdx_append {α : Type} (xs ys : List α) (y : α) :
    (xs ++ ys).insertIdx xs.length y = xs ++ y :: ys := by
  induction xs with
  | nil => rfl
  | cons x xs ih => simpa using ih

theorem find?_append_of_notMem {id : NodeId} {nodes : List Node} {node : Node}
    (h : id ∉ nodes.map Node.id) (hid : node.id = id) (back : List Node) :
    (nodes ++ node :: back).find? (·.id = id) = some node := by
  have hnone : nodes.find? (·.id = id) = none := by
    refine List.find?_eq_none.mpr fun n hn he => h (List.mem_map.mpr ⟨n, hn, ?_⟩)
    simpa using he
  rw [List.find?_append, hnone, List.find?_cons_of_pos (by simpa using hid)]
  rfl

namespace Ahead

theorem wellFormed (h : Ahead g front rest e) : e.graph.WellFormed := h.kept.wellFormed

/-- A new id is not in use. -/
theorem notMem_ids (h : Ahead g front rest e) :
    (⟨e.graph.nextNode⟩ : NodeId) ∉ (front ++ rest).map Node.id := by
  intro hm
  obtain ⟨n, hn, hid⟩ := List.mem_map.mp hm
  rw [← h.nodes] at hn
  have hlt := h.wellFormed.issued n hn
  rw [hid] at hlt
  exact Nat.lt_irrefl _ hlt

theorem nodes_emit (h : Ahead g front rest e) (kind : OpKind) (args : List ValueId)
    (type : ValueType) (attrs : AttrList) :
    (e.emit kind args type attrs).1.graph.nodes = front ++ e.emitted kind args attrs :: rest := by
  rw [emit_graph, h.position]
  show e.graph.nodes.insertIdx (min front.length e.graph.nodes.length) _ = _
  rw [h.nodes, List.length_append, Nat.min_eq_left (Nat.le_add_right _ _), insertIdx_append]

/-- The emitted value is the one that is new in the arena. -/
theorem emit_snd (h : Ahead g front rest e) (kind : OpKind) (args : List ValueId)
    (type : ValueType) (attrs : AttrList) :
    (e.emit kind args type attrs).2 = ⟨e.graph.values.size⟩ := by
  have hids := h.notMem_ids
  rw [List.map_append, List.mem_append, not_or] at hids
  have hfind : (e.emit kind args type attrs).1.graph.node? ⟨e.graph.nextNode⟩ =
      some (e.emitted kind args attrs) := by
    unfold Graph.node?
    rw [h.nodes_emit]
    exact find?_append_of_notMem hids.1 rfl rest
  show (((e.emit kind args type attrs).1.graph.node? ⟨e.graph.nextNode⟩).bind
    (fun node => node.outputs.head?) <|> some (⟨e.graph.values.size⟩ : ValueId)).getD ⟨0⟩ = _
  rw [hfind]
  rfl

/-- An emission adds a node and keeps the others. -/
theorem mem_nodes_emit (h : Ahead g front rest e) {kind : OpKind} {args : List ValueId}
    {type : ValueType} {attrs : AttrList} {node : Node}
    (hn : node ∈ (e.emit kind args type attrs).1.graph.nodes) :
    node = e.emitted kind args attrs ∨ node ∈ e.graph.nodes := by
  rw [h.nodes_emit, List.mem_append, List.mem_cons] at hn
  rw [h.nodes, List.mem_append]
  tauto

/-- The emitted node may run after the front part. -/
theorem mayFollow_emitted (h : Ahead g front rest e) {kind : OpKind} {args : List ValueId}
    {attrs : AttrList} (hargs : ∀ v ∈ args, v ∈ definedBy e.graph.inputs front) :
    (e.emitted kind args attrs).MayFollow (e.graph.values.size + 1) e.graph.inputs front where
  fresh := fun hm => h.notMem_ids (by
    rw [List.map_append]
    exact List.mem_append_left _ hm)
  reads := hargs
  distinct := List.nodup_singleton _
  unassigned := by
    intro v hv hm
    obtain rfl := List.mem_singleton.mp hv
    refine Nat.lt_irrefl _ (h.wellFormed.form.index_lt (v := ⟨e.graph.values.size⟩) ?_)
    rw [h.nodes]
    exact definedBy_subset_append _ front rest hm
  known := by
    intro v hv
    obtain rfl := List.mem_singleton.mp hv
    exact Nat.lt_succ_self _

theorem form_emit (h : Ahead g front rest e) {kind : OpKind} {args : List ValueId}
    (type : ValueType) (attrs : AttrList) (hargs : ∀ v ∈ args, v ∈ definedBy e.graph.inputs front) :
    (e.emit kind args type attrs).1.graph.SingleAssignment := by
  have hform := h.wellFormed.form
  have horder := hform.nodes
  rw [h.nodes] at horder
  have hids := h.notMem_ids
  rw [List.map_append, List.mem_append, not_or] at hids
  have hnodes := h.nodes_emit kind args type attrs
  have hsize : (e.emit kind args type attrs).1.graph.values.size = e.graph.values.size + 1 := by
    rw [emit_graph, Array.size_push]
  refine ⟨hform.distinct, fun v hv => ?_, ?_, fun v hv => ?_⟩
  · rw [hsize]
    exact Nat.lt_succ_of_lt (hform.known v hv)
  · rw [hnodes, hsize]
    refine horder.insert (Nat.le_succ _) (h.mayFollow_emitted hargs) hids.2 fun v hv => ?_
    obtain rfl := List.mem_singleton.mp hv
    exact Nat.le_refl _
  · have hdefined := hform.outputs v hv
    rw [h.nodes] at hdefined
    rw [hnodes]
    show v ∈ definedBy e.graph.inputs _
    simp only [definedBy, List.flatMap_append, List.flatMap_cons, List.mem_append] at hdefined ⊢
    tauto

/-- As long as there are ids, an emission keeps the graph well-formed. -/
theorem extends_emit (h : Ahead g front rest e) {kind : OpKind} {args : List ValueId}
    (type : ValueType) (attrs : AttrList) (hargs : ∀ v ∈ args, v ∈ definedBy e.graph.inputs front)
    (harity : kind.admits args.length 1 = true) (hroom : e.graph.nextNode + 1 < 2 ^ 32) :
    e.graph.Extends (e.emit kind args type attrs).1.graph where
  wellFormed := {
    form := h.form_emit type attrs hargs
    arity := by
      intro n hn
      rcases h.mem_nodes_emit hn with rfl | hn
      · exact Graph.checkNode_eq_ok.mpr harity
      · exact h.wellFormed.arity n hn
    issued := by
      intro n hn
      rw [emit_graph, NodeId.next_eq hroom]
      rcases h.mem_nodes_emit hn with rfl | hn
      · exact Nat.lt_succ_self _
      · exact Nat.lt_succ_of_lt (h.wellFormed.issued n hn) }
  inputs := rfl
  outputs := rfl
  later := by
    rw [emit_graph, NodeId.next_eq hroom]
    exact Nat.le_succ _
  origin := by
    intro n hn hid
    rcases h.mem_nodes_emit hn with rfl | hn
    · exact absurd hid (Nat.lt_irrefl _)
    · exact ⟨n, hn, rfl, rfl⟩

/-- An emission moves on behind the new node. -/
theorem emit (h : Ahead g front rest e) (kind : OpKind) (args : List ValueId) (type : ValueType)
    (attrs : AttrList) (hargs : ∀ v ∈ args, v ∈ definedBy g.inputs front)
    (harity : kind.admits args.length 1 = true) (hroom : e.graph.nextNode + 1 < 2 ^ 32) :
    Ahead g (front ++ [e.emitted kind args attrs]) rest (e.emit kind args type attrs).1 where
  kept := by
    rw [← h.kept.inputs] at hargs
    exact h.kept.trans (h.extends_emit type attrs hargs harity hroom)
  nodes := by
    rw [h.nodes_emit, List.append_assoc]
    rfl
  position := by
    rw [List.length_append, ← h.position]
    rfl

end Ahead

/-! ## Chains of emissions -/

/-- The value that the emission with a number defines. -/
def madeValue (g : Graph) (number : Nat) : ValueId := ⟨g.values.size + number⟩

/-- The node that the emission with a number adds. -/
def made (g : Graph) (scope : Option String) (number : Nat) (kind : OpKind) (args : List ValueId)
    (attrs : AttrList) : Node :=
  ⟨⟨g.nextNode + number⟩, kind, args, [madeValue g number], attrs, scope⟩

@[simp]
theorem made_kind (g : Graph) (scope : Option String) (number : Nat) (kind : OpKind)
    (args : List ValueId) (attrs : AttrList) :
    (made g scope number kind args attrs).kind = kind := rfl

/-- An expansion that began behind `before` has added nodes. -/
structure Chain (g : Graph) (before rest : List Node) (scope : Option String) (added : List Node)
    (e : Expansion) : Prop where
  ahead : Ahead g (before ++ added) rest e
  size : e.graph.values.size = g.values.size + added.length
  nextNode : e.graph.nextNode = g.nextNode + added.length
  scope : e.scope = scope
  outputs : added.flatMap Node.outputs = (List.range added.length).map (madeValue g)
  results : e.graph.outputs = g.outputs
  grows : g.Grows e.graph

/-- The last emission of a chain answers the value that it defines. -/
def Yields (g : Graph) (before rest : List Node) (scope : Option String) (added : List Node)
    (last : Nat) (result : Expansion × ValueId) : Prop :=
  ∃ e, result = (e, madeValue g last) ∧ Chain g before rest scope added e ∧
    added.length = last + 1

section

variable {before added : List Node} {scope : Option String} {last : Nat}

/-- A chain begins with no emission. -/
theorem Ahead.chain (h : Ahead g before rest e) (hbegin : e.graph = g) :
    Chain g before rest e.scope [] e where
  ahead := by rwa [List.append_nil]
  size := by rw [hbegin]; rfl
  nextNode := by rw [hbegin]; rfl
  scope := rfl
  outputs := rfl
  results := by rw [hbegin]
  grows := .of_eq (by rw [hbegin])

namespace Chain

/-- The values that the emitted nodes may read. -/
theorem mem_definedBy (h : Chain g before rest scope added e) {v : ValueId}
    (hv : v ∈ definedBy g.inputs before ∨ ∃ number < added.length, v = madeValue g number) :
    v ∈ definedBy g.inputs (before ++ added) := by
  rw [definedBy_append, h.outputs, List.mem_append]
  refine hv.imp_right ?_
  rintro ⟨number, hlt, rfl⟩
  exact List.mem_map_of_mem (List.mem_range.mpr hlt)

/-- One more emission. -/
theorem emit (h : Chain g before rest scope added e) (number : Nat) (kind : OpKind)
    (args : List ValueId) (type : ValueType) (attrs : AttrList) (hcount : added.length = number)
    (hargs : ∀ v ∈ args, v ∈ definedBy g.inputs before ∨ ∃ i < number, v = madeValue g i)
    (harity : kind.admits args.length 1 = true) (hroom : g.nextNode + number + 1 < 2 ^ 32) :
    Yields g before rest scope (added ++ [made g scope number kind args attrs]) number
      (e.emit kind args type attrs) := by
  subst hcount
  rw [← h.nextNode] at hroom
  have hnode : e.emitted kind args attrs = made g scope added.length kind args attrs := by
    unfold emitted made madeValue
    rw [h.size, h.nextNode, h.scope]
  have hvalue : (e.emit kind args type attrs).2 = madeValue g added.length := by
    rw [h.ahead.emit_snd, h.size]
    rfl
  refine ⟨_, Prod.ext rfl hvalue, ⟨?_, ?_, ?_, h.scope, ?_, h.results,
    h.grows.trans (.of_push rfl)⟩, List.length_append⟩
  · rw [← List.append_assoc, ← hnode]
    exact h.ahead.emit kind args type attrs (fun v hv => h.mem_definedBy (hargs v hv)) harity hroom
  · rw [emit_graph, List.length_append, ← Nat.add_assoc, ← h.size]
    exact Array.size_push _
  · rw [emit_graph, List.length_append, ← Nat.add_assoc, ← h.nextNode]
    exact NodeId.next_eq hroom
  · rw [List.flatMap_append, h.outputs, List.length_append, List.length_singleton,
      List.range_succ, List.map_append]
    rfl

end Chain

end

end Expansion

/-! ## Decompositions -/

namespace Decomposition

open Expansion

variable {g : Graph} {before rest added : List Node} {scope : Option String} {e : Expansion}
  {x : ValueId}

/-- Attributes of a node that reads one operand and a number. -/
def scalarAttrs (kind : OpKind) (other : Float) : AttrList :=
  .ofList (("other", .float other) ::
    if kind = .add ∨ kind = .sub then [("alpha", Attr.int 1)] else [])

/-- `x · permute(w) + b` -/
def linearNodes (g : Graph) (scope : Option String) (x weight : ValueId)
    (bias? : Option ValueId) : List Node :=
  [made g scope 0 .permute [weight] (.ofList [("dims", .ints [1, 0])]),
    made g scope 1 .matmul [x, madeValue g 0] .empty] ++
  (bias?.map fun bias => made g scope 2 .add [madeValue g 1, bias] plainSum).toList

/-- `x · sigmoid(x)` -/
def siluNodes (g : Graph) (scope : Option String) (x : ValueId) : List Node :=
  [made g scope 0 .sigmoid [x] .empty, made g scope 1 .mul [x, madeValue g 0] .empty]

/-- `tanh(√(2/π) · (x + 0.044715 · x³))` -/
def tanhTermNodes (g : Graph) (scope : Option String) (x : ValueId) : List Node :=
  [made g scope 0 .pow [x] (scalarAttrs .pow 3.0),
    made g scope 1 .mul [madeValue g 0] (scalarAttrs .mul cubicWeight),
    made g scope 2 .add [x, madeValue g 1] plainSum,
    made g scope 3 .mul [madeValue g 2] (scalarAttrs .mul rootTwoOverPi),
    made g scope 4 .tanh [madeValue g 3] .empty]

/-- `erf(x / √2)` -/
def erfTermNodes (g : Graph) (scope : Option String) (x : ValueId) : List Node :=
  [made g scope 0 .mul [x] (scalarAttrs .mul rootHalf),
    made g scope 1 .erf [madeValue g 0] .empty]

/-- `(0.5 · x) · (1 + t)`, where `t` is the value with number `inner` -/
def halfNodes (g : Graph) (scope : Option String) (x : ValueId) (inner : Nat) : List Node :=
  [made g scope (inner + 1) .add [madeValue g inner] (scalarAttrs .add 1.0),
    made g scope (inner + 2) .mul [x] (scalarAttrs .mul 0.5),
    made g scope (inner + 3) .mul [madeValue g (inner + 2), madeValue g (inner + 1)] .empty]

/-- The nodes of a Gaussian unit. -/
def geluNodes (g : Graph) (scope : Option String) (x : ValueId) (useTanh : Bool) : List Node :=
  if useTanh then tanhTermNodes g scope x ++ halfNodes g scope x 4
  else erfTermNodes g scope x ++ halfNodes g scope x 1

theorem yields_scalar (h : Chain g before rest scope added e) (number : Nat) (kind : OpKind)
    (other : Float) (type : ValueType) (hcount : added.length = number)
    (hx : x ∈ definedBy g.inputs before ∨ ∃ i < number, x = madeValue g i)
    (harity : kind.admits 1 1 = true) (hroom : g.nextNode + number + 1 < 2 ^ 32) :
    Yields g before rest scope (added ++ [made g scope number kind [x] (scalarAttrs kind other)])
      number (e.emitScalar kind x other type) :=
  h.emit number kind [x] type _ hcount (List.forall_mem_singleton.mpr hx) harity hroom

theorem yields_linear (h : Chain g before rest scope [] e) {weight : ValueId}
    {bias? : Option ValueId} (weightType outType : ValueType) (hx : x ∈ definedBy g.inputs before)
    (hweight : weight ∈ definedBy g.inputs before)
    (hbias : ∀ bias ∈ bias?, bias ∈ definedBy g.inputs before)
    (hroom : g.nextNode + 3 < 2 ^ 32) :
    Yields g before rest scope (linearNodes g scope x weight bias?) (if bias?.isSome then 2 else 1)
      (emitLinear e x weight bias? weightType outType) := by
  unfold emitLinear
  obtain ⟨e₁, he₁, h₁, -⟩ := h.emit 0 .permute [weight] weightType
    (.ofList [("dims", .ints [1, 0])]) rfl (List.forall_mem_singleton.mpr (.inl hweight)) rfl
    (by omega)
  rw [he₁]
  obtain ⟨e₂, he₂, h₂, -⟩ := h₁.emit 1 .matmul [x, madeValue g 0] outType .empty rfl
    (List.forall_mem_cons.mpr ⟨.inl hx, List.forall_mem_singleton.mpr (.inr ⟨0, by decide, rfl⟩)⟩)
    rfl (by omega)
  dsimp only
  rw [he₂]
  cases bias? with
  | none => exact ⟨e₂, rfl, h₂, rfl⟩
  | some bias =>
    exact h₂.emit 2 .add [madeValue g 1, bias] outType plainSum rfl (List.forall_mem_cons.mpr
      ⟨.inr ⟨1, by decide, rfl⟩, List.forall_mem_singleton.mpr (.inl (hbias bias rfl))⟩) rfl
      (by omega)

theorem yields_silu (h : Chain g before rest scope [] e) (type outType : ValueType)
    (hx : x ∈ definedBy g.inputs before) (hroom : g.nextNode + 2 < 2 ^ 32) :
    Yields g before rest scope (siluNodes g scope x) 1 (emitSilu e x type outType) := by
  unfold emitSilu
  obtain ⟨e₁, he₁, h₁, -⟩ := h.emit 0 .sigmoid [x] type .empty rfl
    (List.forall_mem_singleton.mpr (.inl hx)) rfl (by omega)
  rw [he₁]
  exact h₁.emit 1 .mul [x, madeValue g 0] outType .empty rfl
    (List.forall_mem_cons.mpr ⟨.inl hx, List.forall_mem_singleton.mpr (.inr ⟨0, by decide, rfl⟩)⟩)
    rfl (by omega)

theorem yields_tanhTerm (h : Chain g before rest scope [] e) (type : ValueType)
    (hx : x ∈ definedBy g.inputs before) (hroom : g.nextNode + 5 < 2 ^ 32) :
    Yields g before rest scope (tanhTermNodes g scope x) 4 (emitTanhTerm e x type) := by
  unfold emitTanhTerm
  obtain ⟨e₁, he₁, h₁, -⟩ := yields_scalar h 0 .pow 3.0 type rfl (.inl hx) rfl (by omega)
  rw [he₁]
  obtain ⟨e₂, he₂, h₂, -⟩ :=
    yields_scalar h₁ 1 .mul cubicWeight type rfl (.inr ⟨0, by decide, rfl⟩) rfl (by omega)
  dsimp only
  rw [he₂]
  obtain ⟨e₃, he₃, h₃, -⟩ := h₂.emit 2 .add [x, madeValue g 1] type plainSum rfl
    (List.forall_mem_cons.mpr ⟨.inl hx, List.forall_mem_singleton.mpr (.inr ⟨1, by decide, rfl⟩)⟩)
    rfl (by omega)
  dsimp only
  rw [he₃]
  obtain ⟨e₄, he₄, h₄, -⟩ :=
    yields_scalar h₃ 3 .mul rootTwoOverPi type rfl (.inr ⟨2, by decide, rfl⟩) rfl (by omega)
  dsimp only
  rw [he₄]
  exact h₄.emit 4 .tanh [madeValue g 3] type .empty rfl
    (List.forall_mem_singleton.mpr (.inr ⟨3, by decide, rfl⟩)) rfl (by omega)

theorem yields_erfTerm (h : Chain g before rest scope [] e) (type : ValueType)
    (hx : x ∈ definedBy g.inputs before) (hroom : g.nextNode + 2 < 2 ^ 32) :
    Yields g before rest scope (erfTermNodes g scope x) 1 (emitErfTerm e x type) := by
  unfold emitErfTerm
  obtain ⟨e₁, he₁, h₁, -⟩ := yields_scalar h 0 .mul rootHalf type rfl (.inl hx) rfl (by omega)
  rw [he₁]
  exact h₁.emit 1 .erf [madeValue g 0] type .empty rfl
    (List.forall_mem_singleton.mpr (.inr ⟨0, by decide, rfl⟩)) rfl (by omega)

theorem yields_half {inner : Nat} (h : Chain g before rest scope added e)
    (hcount : added.length = inner + 1) (type outType : ValueType)
    (hx : x ∈ definedBy g.inputs before) (hroom : g.nextNode + inner + 4 < 2 ^ 32) :
    Yields g before rest scope (added ++ halfNodes g scope x inner) (inner + 3)
      (let (e, shifted) := e.emitScalar .add (madeValue g inner) 1.0 type
      let (e, half) := e.emitScalar .mul x 0.5 type
      e.emit .mul [half, shifted] outType .empty) := by
  obtain ⟨e₁, he₁, h₁, -⟩ :=
    yields_scalar h (inner + 1) .add 1.0 type hcount (.inr ⟨inner, by omega, rfl⟩) rfl (by omega)
  rw [he₁]
  obtain ⟨e₂, he₂, h₂, -⟩ := yields_scalar h₁ (inner + 2) .mul 0.5 type
    (by rw [List.length_append, hcount]; rfl) (.inl hx) rfl (by omega)
  dsimp only
  rw [he₂]
  have hlast := h₂.emit (inner + 3) .mul [madeValue g (inner + 2), madeValue g (inner + 1)] outType
    .empty (by rw [List.length_append, List.length_append, hcount]; rfl) (List.forall_mem_cons.mpr
      ⟨.inr ⟨inner + 2, by omega, rfl⟩,
        List.forall_mem_singleton.mpr (.inr ⟨inner + 1, by omega, rfl⟩)⟩) rfl (by omega)
  rw [List.append_assoc, List.append_assoc] at hlast
  exact hlast

theorem yields_gelu (h : Chain g before rest scope [] e) (useTanh : Bool) (type outType : ValueType)
    (hx : x ∈ definedBy g.inputs before) (hroom : g.nextNode + 8 < 2 ^ 32) :
    Yields g before rest scope (geluNodes g scope x useTanh) (if useTanh then 7 else 4)
      (emitGelu e x useTanh type outType) := by
  unfold emitGelu
  cases useTanh with
  | true =>
    obtain ⟨e₁, he₁, h₁, -⟩ := yields_tanhTerm h type hx (by omega)
    rw [if_pos rfl, he₁]
    exact yields_half h₁ rfl type outType hx (by omega)
  | false =>
    obtain ⟨e₁, he₁, h₁, -⟩ := yields_erfTerm h type hx (by omega)
    have hrest : g.nextNode + 1 + 4 < 2 ^ 32 := by omega
    rw [if_neg Bool.false_ne_true, he₁]
    exact yields_half h₁ rfl type outType hx hrest

end Decomposition

end HybridGraph
