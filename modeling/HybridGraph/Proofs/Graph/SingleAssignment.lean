import HybridGraph.Graph.Index
import HybridGraph.Proofs.Outcome
import Mathlib.Data.List.Induction
import Mathlib.Data.List.Nodup
/-!
# Graphs in single assignment form

A graph is in single assignment form if node ids are distinct, every value is defined once, every
operand is defined before the node that reads it, and every graph output is defined.  These are the
graphs that have an index, and the index answers what the node list says:

    build g = .ok index → g.SingleAssignment ∧ index.Describes g.inputs g.nodes ∧ …
                                                                               (describes_of_build)
    g.SingleAssignment → ∃ index, build g = .ok index                                (exists_build)
-/

namespace HybridGraph

/-! ## The form -/

/-- The values that exist once the inputs are bound and the nodes have run. -/
def definedBy (inputs : List ValueId) (nodes : List Node) : List ValueId :=
  inputs ++ nodes.flatMap Node.outputs

/-- A node may run after others: its id is new, its operands exist, its results do not exist yet
and belong to the arena. -/
structure Node.MayFollow (arena : Nat) (inputs : List ValueId) (before : List Node) (node : Node) :
    Prop where
  fresh : node.id ∉ before.map Node.id
  reads : ∀ v ∈ node.inputs, v ∈ definedBy inputs before
  distinct : node.outputs.Nodup
  unassigned : ∀ v ∈ node.outputs, v ∉ definedBy inputs before
  known : ∀ v ∈ node.outputs, v.index < arena

/-- Every node may run after those in front of it. -/
def InOrder (arena : Nat) (inputs : List ValueId) (nodes : List Node) : Prop :=
  ∀ before node after, nodes = before ++ node :: after → node.MayFollow arena inputs before

/-- Every value of a graph is defined once and before it is read. -/
structure Graph.SingleAssignment (g : Graph) : Prop where
  distinct : g.inputs.Nodup
  known : ∀ v ∈ g.inputs, v.index < g.values.size
  nodes : InOrder g.values.size g.inputs g.nodes
  outputs : ∀ v ∈ g.outputs, v ∈ definedBy g.inputs g.nodes

/-- What an index says about inputs and nodes. -/
structure GraphIndex.Describes (index : GraphIndex) (inputs : List ValueId) (nodes : List Node) :
    Prop where
  position : ∀ id, index.position? id = nodes.findIdx? (·.id = id)
  input : ∀ v i, index.definition? v = some (.input i) ↔ inputs[i]? = some v
  node : ∀ v id slot, index.definition? v = some (.node id slot) ↔
    ∃ node ∈ nodes, node.id = id ∧ node.outputs[slot]? = some v
  users : ∀ v, index.users v = (nodes.filter (·.inputs.contains v)).map Node.id

/-! ## Lists of nodes -/

theorem mem_definedBy {inputs : List ValueId} {nodes : List Node} {v : ValueId} :
    v ∈ definedBy inputs nodes ↔ v ∈ inputs ∨ ∃ node ∈ nodes, v ∈ node.outputs := by
  simp only [definedBy, List.mem_append, List.mem_flatMap]

theorem definedBy_append (inputs : List ValueId) (a b : List Node) :
    definedBy inputs (a ++ b) = definedBy inputs a ++ b.flatMap Node.outputs := by
  simp only [definedBy, List.flatMap_append, List.append_assoc]

/-- Values that exist stay. -/
theorem definedBy_subset_append (inputs : List ValueId) (a b : List Node) :
    definedBy inputs a ⊆ definedBy inputs (a ++ b) := by
  rw [definedBy_append]
  exact List.subset_append_left _ _

theorem inOrder_nil (arena : Nat) (inputs : List ValueId) : InOrder arena inputs [] := by
  intro before node after h
  exact absurd h (by simp)

/-- The last node of a list may be checked by itself. -/
theorem inOrder_concat {arena : Nat} {inputs : List ValueId} {nodes : List Node} {node : Node} :
    InOrder arena inputs (nodes ++ [node]) ↔
      InOrder arena inputs nodes ∧ node.MayFollow arena inputs nodes := by
  constructor
  · intro h
    refine ⟨fun before n after hn => ?_, h nodes node [] rfl⟩
    exact h before n (after ++ [node]) (by rw [hn]; simp)
  · rintro ⟨hnodes, hnode⟩ before n after h
    rcases List.eq_nil_or_concat after with rfl | ⟨init, last, rfl⟩
    · obtain ⟨rfl, hlast⟩ := List.append_inj' h rfl
      obtain rfl : node = n := by simpa using hlast
      exact hnode
    · refine hnodes before n init ?_
      have h' : nodes ++ [node] = (before ++ n :: init) ++ [last] := by rw [h]; simp
      exact (List.append_inj' h' rfl).1

theorem Node.mayFollow_iff {arena : Nat} {inputs : List ValueId} {before : List Node}
    {node : Node} : node.MayFollow arena inputs before ↔
      node.id ∉ before.map Node.id ∧ (∀ v ∈ node.inputs, v ∈ definedBy inputs before) ∧
      node.outputs.Nodup ∧ (∀ v ∈ node.outputs, v ∉ definedBy inputs before) ∧
      ∀ v ∈ node.outputs, v.index < arena :=
  ⟨fun ⟨h1, h2, h3, h4, h5⟩ => ⟨h1, h2, h3, h4, h5⟩,
    fun ⟨h1, h2, h3, h4, h5⟩ => ⟨h1, h2, h3, h4, h5⟩⟩

theorem inOrder_iff_take {arena : Nat} {inputs : List ValueId} {nodes : List Node} :
    InOrder arena inputs nodes ↔
      ∀ i (h : i < nodes.length), nodes[i].MayFollow arena inputs (nodes.take i) := by
  constructor
  · intro h i hi
    refine h (nodes.take i) nodes[i] (nodes.drop (i + 1)) ?_
    rw [← List.drop_eq_getElem_cons hi, List.take_append_drop]
  · rintro h before node after rfl
    have hi : before.length < (before ++ node :: after).length := by simp
    have hnode := h before.length hi
    simpa using hnode

instance (arena : Nat) (inputs : List ValueId) (before : List Node) (node : Node) :
    Decidable (node.MayFollow arena inputs before) := decidable_of_iff _ Node.mayFollow_iff.symm

instance (arena : Nat) (inputs : List ValueId) (nodes : List Node) :
    Decidable (InOrder arena inputs nodes) := decidable_of_iff _ inOrder_iff_take.symm

instance (g : Graph) : Decidable g.SingleAssignment :=
  decidable_of_iff (g.inputs.Nodup ∧ (∀ v ∈ g.inputs, v.index < g.values.size) ∧
      InOrder g.values.size g.inputs g.nodes ∧ ∀ v ∈ g.outputs, v ∈ definedBy g.inputs g.nodes)
    ⟨fun ⟨h1, h2, h3, h4⟩ => ⟨h1, h2, h3, h4⟩, fun ⟨h1, h2, h3, h4⟩ => ⟨h1, h2, h3, h4⟩⟩

/-- A node list in order has distinct ids. -/
theorem InOrder.nodup {arena : Nat} {inputs : List ValueId} {nodes : List Node}
    (h : InOrder arena inputs nodes) : (nodes.map Node.id).Nodup := by
  induction nodes using List.reverseRecOn with
  | nil => exact List.nodup_nil
  | append_singleton nodes node ih =>
    obtain ⟨hnodes, hnode⟩ := inOrder_concat.mp h
    rw [List.map_append, List.map_singleton]
    refine (List.nodup_append).mpr ⟨ih hnodes, List.nodup_singleton _, fun a ha b hb => ?_⟩
    obtain rfl := List.mem_singleton.mp hb
    intro he
    exact hnode.fresh (he ▸ ha)

/-- Two nodes of a list in order that share an id are one. -/
theorem InOrder.eq_of_id {arena : Nat} {inputs : List ValueId} {nodes : List Node}
    (h : InOrder arena inputs nodes) {a b : Node} (ha : a ∈ nodes) (hb : b ∈ nodes)
    (he : a.id = b.id) : a = b :=
  List.inj_on_of_nodup_map h.nodup ha hb he

/-- Two nodes of a list in order that define one value are one. -/
theorem InOrder.eq_of_output {arena : Nat} {inputs : List ValueId} {nodes : List Node}
    (h : InOrder arena inputs nodes) {a b : Node} (ha : a ∈ nodes) (hb : b ∈ nodes) {v : ValueId}
    (hav : v ∈ a.outputs) (hbv : v ∈ b.outputs) : a = b := by
  induction nodes using List.reverseRecOn with
  | nil => cases ha
  | append_singleton nodes node ih =>
    obtain ⟨hnodes, hnode⟩ := inOrder_concat.mp h
    rcases List.mem_append.mp ha with ha' | ha' <;> rcases List.mem_append.mp hb with hb' | hb'
    · exact ih hnodes ha' hb'
    · obtain rfl := List.mem_singleton.mp hb'
      exact absurd (mem_definedBy.mpr (.inr ⟨a, ha', hav⟩)) (hnode.unassigned v hbv)
    · obtain rfl := List.mem_singleton.mp ha'
      exact absurd (mem_definedBy.mpr (.inr ⟨b, hb', hbv⟩)) (hnode.unassigned v hav)
    · rw [List.mem_singleton.mp ha', List.mem_singleton.mp hb']

/-- No node defines an input. -/
theorem InOrder.not_mem_inputs {arena : Nat} {inputs : List ValueId} {nodes : List Node}
    (h : InOrder arena inputs nodes) {node : Node} (hn : node ∈ nodes) {v : ValueId}
    (hv : v ∈ node.outputs) : v ∉ inputs := by
  obtain ⟨before, after, hsplit⟩ := List.append_of_mem hn
  intro hi
  exact (h before node after hsplit).unassigned v hv (mem_definedBy.mpr (.inl hi))

/-- No two nodes in order define the same value. -/
theorem InOrder.nodup_flatMap_outputs {arena : Nat} {inputs : List ValueId} {nodes : List Node}
    (h : InOrder arena inputs nodes) : (nodes.flatMap Node.outputs).Nodup := by
  induction nodes using List.reverseRecOn with
  | nil => exact List.nodup_nil
  | append_singleton nodes node ih =>
    obtain ⟨hnodes, hnode⟩ := inOrder_concat.mp h
    rw [List.flatMap_append, List.flatMap_singleton]
    refine List.nodup_append.mpr ⟨ih hnodes, hnode.distinct, fun v hv w hw heq => ?_⟩
    subst heq
    exact hnode.unassigned v hw (List.mem_append_right _ hv)

/-! ## Entering values -/

namespace GraphIndex

theorem define_eq_ok {arena : Nat} {index index' : GraphIndex} {site : Definition} {v : ValueId} :
    index.define arena site v = .ok index' ↔
      v.index < arena ∧ v ∉ index.definitions ∧
        { index with definitions := index.definitions.insert v site } = index' := by
  by_cases hlt : v.index < arena
  · by_cases hv : v ∈ index.definitions
    · simp [define, checkKnown, bind, Except.bind, hlt, hv]
    · simp [define, checkKnown, bind, Except.bind, pure, Except.pure, hlt, hv]
  · simp [define, checkKnown, bind, Except.bind, hlt]

theorem read_eq_ok {arena : Nat} {node : Node} {index index' : GraphIndex} {v : ValueId} :
    read arena node index v = .ok index' ↔
      v.index < arena ∧ v ∈ index.definitions ∧
        { index with
          readers := index.readers.insert v (addReader node.id (index.readers.getD v [])) } =
          index' := by
  by_cases hlt : v.index < arena
  · by_cases hv : v ∈ index.definitions
    · simp [read, checkKnown, bind, Except.bind, pure, Except.pure, hlt, hv]
    · simp [read, checkKnown, bind, Except.bind, hlt, hv]
  · simp [read, checkKnown, bind, Except.bind, hlt]

/-- Entering definitions succeeds exactly on new, distinct values of the arena. -/
theorem foldlM_define_eq_ok {arena : Nat} {site : Nat → Definition} {vs : List ValueId} {k : Nat}
    {index index' : GraphIndex} :
    (vs.zipIdx k).foldlM (fun index (v, i) => index.define arena (site i) v) index = .ok index' ↔
      vs.Nodup ∧ (∀ v ∈ vs, v.index < arena ∧ v ∉ index.definitions) ∧
        { index with
          definitions := (vs.zipIdx k).foldl
            (fun definitions (v, i) => definitions.insert v (site i)) index.definitions } =
          index' := by
  induction vs generalizing k index with
  | nil => simp [pure, Except.pure]
  | cons v vs ih =>
    simp only [List.zipIdx_cons, List.foldlM_cons]
    constructor
    · intro h
      cases hd : index.define arena (site k) v with
      | error e => simp [hd, bind, Except.bind] at h
      | ok next =>
        obtain ⟨hlt, hv, rfl⟩ := define_eq_ok.mp hd
        rw [hd] at h
        obtain ⟨hnodup, hall, rfl⟩ := ih.mp h
        refine ⟨List.nodup_cons.mpr ⟨fun hm => ?_, hnodup⟩, fun w hw => ?_, rfl⟩
        · exact (hall v hm).2 (by simp)
        · rcases List.mem_cons.mp hw with rfl | hw
          · exact ⟨hlt, hv⟩
          · obtain ⟨hw1, hw2⟩ := hall w hw
            exact ⟨hw1, fun hm => hw2 (by simp [hm])⟩
    · rintro ⟨hnodup, hall, hnext⟩
      obtain ⟨hnot, hnodup⟩ := List.nodup_cons.mp hnodup
      obtain ⟨hlt, hv⟩ := hall v List.mem_cons_self
      rw [define_eq_ok.mpr ⟨hlt, hv, rfl⟩]
      refine ih.mpr ⟨hnodup, fun w hw => ?_, hnext⟩
      obtain ⟨hw1, hw2⟩ := hall w (List.mem_cons_of_mem _ hw)
      refine ⟨hw1, ?_⟩
      have hne : v ≠ w := fun he => hnot (he ▸ hw)
      simp [hw2, hne]

/-- Entering reads succeeds exactly on values of the arena that are defined. -/
theorem foldlM_read_eq_ok {arena : Nat} {node : Node} {vs : List ValueId}
    {index index' : GraphIndex} :
    vs.foldlM (read arena node) index = .ok index' ↔
      (∀ v ∈ vs, v.index < arena ∧ v ∈ index.definitions) ∧
        { index with
          readers := vs.foldl
            (fun readers v => readers.insert v (addReader node.id (readers.getD v [])))
            index.readers } = index' := by
  induction vs generalizing index with
  | nil => simp [pure, Except.pure]
  | cons v vs ih =>
    rw [List.foldlM_cons]
    constructor
    · intro h
      cases hd : read arena node index v with
      | error e => simp [hd, bind, Except.bind] at h
      | ok next =>
        obtain ⟨hlt, hv, rfl⟩ := read_eq_ok.mp hd
        rw [hd] at h
        obtain ⟨hall, rfl⟩ := ih.mp h
        refine ⟨fun w hw => ?_, rfl⟩
        rcases List.mem_cons.mp hw with rfl | hw
        · exact ⟨hlt, hv⟩
        · exact hall w hw
    · rintro ⟨hall, rfl⟩
      obtain ⟨hlt, hv⟩ := hall v List.mem_cons_self
      rw [read_eq_ok.mpr ⟨hlt, hv, rfl⟩]
      exact ih.mpr ⟨fun w hw => hall w (List.mem_cons_of_mem _ hw), rfl⟩

/-- What entering definitions does to a look-up. -/
theorem getElem?_foldl_insert {site : Nat → Definition} {vs : List ValueId} (hvs : vs.Nodup)
    (k : Nat) (definitions : Std.HashMap ValueId Definition) (w : ValueId) :
    ((vs.zipIdx k).foldl
        (fun definitions (v, i) => definitions.insert v (site i)) definitions)[w]? =
      if w ∈ vs then some (site (k + vs.idxOf w)) else definitions[w]? := by
  induction vs generalizing k definitions with
  | nil => simp
  | cons v vs ih =>
    obtain ⟨hnot, hvs⟩ := List.nodup_cons.mp hvs
    rw [List.zipIdx_cons, List.foldl_cons, ih hvs]
    by_cases hw : w ∈ vs
    · have hne : v ≠ w := fun he => hnot (he ▸ hw)
      rw [if_pos hw, if_pos (List.mem_cons_of_mem _ hw), List.idxOf_cons_ne _ hne]
      congr 2
      omega
    · by_cases he : v = w
      · subst he
        simp [hw]
      · have he' : ¬ w = v := fun h => he h.symm
        simp [hw, he', Std.HashMap.getElem?_insert, he]

/-- What entering the reads of a node does to the readers of a value. -/
theorem getD_foldl_addReader (id : NodeId) (vs : List ValueId)
    (readers : Std.HashMap ValueId (List NodeId)) (w : ValueId) :
    (vs.foldl (fun readers v => readers.insert v (addReader id (readers.getD v []))) readers).getD
        w [] =
      if w ∈ vs then addReader id (readers.getD w []) else readers.getD w [] := by
  induction vs generalizing readers with
  | nil => simp
  | cons v vs ih =>
    have htwice : ∀ ids, addReader id (addReader id ids) = addReader id ids := by
      intro ids
      unfold addReader
      split
      · next h => rfl
      · next h => simp
    rw [List.foldl_cons, ih, Std.HashMap.getD_insert]
    by_cases he : v = w
    · subst he
      by_cases hw : v ∈ vs <;> simp [hw, htwice]
    · have he' : ¬ w = v := fun h => he h.symm
      simp [he, he']

/-! ## Entering nodes -/

theorem enterNode_eq_ok {arena : Nat} {index index' : GraphIndex} {node : Node} {position : Nat} :
    enterNode arena index (node, position) = .ok index' ↔
      node.id ∉ index.positions ∧
      (∀ v ∈ node.inputs, v.index < arena ∧ v ∈ index.definitions) ∧
      node.outputs.Nodup ∧ (∀ v ∈ node.outputs, v.index < arena ∧ v ∉ index.definitions) ∧
        { index with
          positions := index.positions.insert node.id position
          definitions := node.outputs.zipIdx.foldl
            (fun definitions (v, slot) => definitions.insert v (.node node.id slot))
            index.definitions
          readers := node.inputs.foldl
            (fun readers v => readers.insert v (addReader node.id (readers.getD v [])))
            index.readers } = index' := by
  unfold enterNode
  by_cases hid : node.id ∈ index.positions
  · simp [hid, bind, Except.bind, throw, throwThe, MonadExceptOf.throw]
  · have hid' : index.positions.contains node.id = false := by simp [hid]
    simp only [hid', Bool.false_eq_true, if_false, bind, Except.bind]
    constructor
    · intro h
      split at h
      · cases h
      · next next hr =>
        obtain ⟨hreads, rfl⟩ := foldlM_read_eq_ok.mp hr
        obtain ⟨hnodup, hall, hnext⟩ := foldlM_define_eq_ok.mp h
        exact ⟨hid, hreads, hnodup, hall, hnext⟩
    · rintro ⟨-, hreads, hnodup, hall, hnext⟩
      have hr : node.inputs.foldlM (read arena node)
          { index with positions := index.positions.insert node.id position } = .ok _ :=
        foldlM_read_eq_ok.mpr ⟨hreads, rfl⟩
      rw [hr]
      exact foldlM_define_eq_ok.mpr ⟨hnodup, hall, hnext⟩

namespace Describes

variable {index : GraphIndex} {inputs : List ValueId} {nodes : List Node}

/-- The defined values of an index are those of inputs and nodes. -/
theorem mem_definitions (h : index.Describes inputs nodes) {v : ValueId} :
    v ∈ index.definitions ↔ v ∈ definedBy inputs nodes := by
  rw [Std.HashMap.mem_iff_isSome_getElem?, Option.isSome_iff_exists, mem_definedBy]
  constructor
  · rintro ⟨site, hs⟩
    cases site with
    | input i => exact .inl (List.mem_of_getElem? ((h.input v i).mp hs))
    | node id slot =>
      obtain ⟨node, hn, -, hv⟩ := (h.node v id slot).mp hs
      exact .inr ⟨node, hn, List.mem_of_getElem? hv⟩
  · rintro (hv | ⟨node, hn, hv⟩)
    · obtain ⟨i, hi⟩ := List.mem_iff_getElem?.mp hv
      exact ⟨.input i, (h.input v i).mpr hi⟩
    · obtain ⟨slot, hs⟩ := List.mem_iff_getElem?.mp hv
      exact ⟨.node node.id slot, (h.node v node.id slot).mpr ⟨node, hn, rfl, hs⟩⟩

/-- The placed ids of an index are those of the nodes. -/
theorem mem_positions (h : index.Describes inputs nodes) {id : NodeId} :
    id ∈ index.positions ↔ id ∈ nodes.map Node.id := by
  rw [Std.HashMap.mem_iff_isSome_getElem?]
  show (index.position? id).isSome ↔ _
  rw [h.position, List.findIdx?_isSome, List.any_eq_true, List.mem_map]
  simp

/-- An index that describes inputs and nodes accepts exactly the nodes that may follow. -/
theorem mayFollow_of_enterNode (h : index.Describes inputs nodes) {arena : Nat} {node : Node}
    {index' : GraphIndex} (he : enterNode arena index (node, nodes.length) = .ok index') :
    node.MayFollow arena inputs nodes := by
  obtain ⟨hid, hreads, hnodup, hall, -⟩ := enterNode_eq_ok.mp he
  exact {
    fresh := fun hm => hid (h.mem_positions.mpr hm)
    reads := fun v hv => h.mem_definitions.mp (hreads v hv).2
    distinct := hnodup
    unassigned := fun v hv hm => (hall v hv).2 (h.mem_definitions.mpr hm)
    known := fun v hv => (hall v hv).1 }

/-- A node that may follow is entered. -/
theorem exists_enterNode (h : index.Describes inputs nodes) {arena : Nat}
    (harena : ∀ v ∈ definedBy inputs nodes, v.index < arena) {node : Node}
    (hnode : node.MayFollow arena inputs nodes) :
    ∃ index', enterNode arena index (node, nodes.length) = .ok index' := by
  refine ⟨_, enterNode_eq_ok.mpr
    ⟨fun hm => ?_, fun v hv => ?_, hnode.distinct, fun v hv => ?_, rfl⟩⟩
  · exact hnode.fresh (h.mem_positions.mp hm)
  · have hd := hnode.reads v hv
    exact ⟨harena v hd, h.mem_definitions.mpr hd⟩
  · exact ⟨hnode.known v hv, fun hm => hnode.unassigned v hv (h.mem_definitions.mp hm)⟩

/-- The place of a new node is the number of nodes before it. -/
theorem position_insert (h : index.Describes inputs nodes) {node : Node}
    (hfresh : node.id ∉ nodes.map Node.id) (id : NodeId) :
    (index.positions.insert node.id nodes.length)[id]? =
      (nodes ++ [node]).findIdx? (·.id = id) := by
  rw [Std.HashMap.getElem?_insert, List.findIdx?_append]
  by_cases hid : node.id = id
  · subst hid
    have hnone : nodes.findIdx? (·.id = node.id) = none := by
      rw [← h.position]
      exact Std.HashMap.getElem?_eq_none fun hm => hfresh (h.mem_positions.mp hm)
    simp [hnone]
  · have hpos : index.positions[id]? = nodes.findIdx? (·.id = id) := h.position id
    simp [hid, hpos]

/-- The slot of a result. -/
theorem getElem?_outputs_iff {node : Node} (hnodup : node.outputs.Nodup) {v : ValueId}
    (hv : v ∈ node.outputs) {slot : Nat} :
    node.outputs[slot]? = some v ↔ node.outputs.idxOf v = slot := by
  constructor
  · intro hs
    exact (List.getElem?_inj (List.idxOf_lt_length_iff.mpr hv) hnodup).mp
      ((List.getElem?_idxOf hv).trans hs.symm)
  · rintro rfl
    exact List.getElem?_idxOf hv

/-- The results of a new node are defined by it, and all other values as before. -/
theorem node_insert (h : index.Describes inputs nodes) {arena : Nat} {node : Node}
    (hnode : node.MayFollow arena inputs nodes) (v : ValueId) (id : NodeId) (slot : Nat) :
    (if v ∈ node.outputs then some (.node node.id (0 + node.outputs.idxOf v))
      else index.definition? v) = some (Definition.node id slot) ↔
        ∃ n ∈ nodes ++ [node], n.id = id ∧ n.outputs[slot]? = some v := by
  have happend : (∃ n ∈ nodes ++ [node], n.id = id ∧ n.outputs[slot]? = some v) ↔
      index.definition? v = some (.node id slot) ∨
        node.id = id ∧ node.outputs[slot]? = some v := by
    rw [h.node]
    simp only [List.mem_append, List.mem_singleton, or_and_right, exists_or, exists_eq_left]
  rw [happend]
  split
  · next hv =>
    have hbefore : index.definition? v ≠ some (.node id slot) := by
      intro hs
      obtain ⟨n, hn, -, hs⟩ := (h.node v id slot).mp hs
      exact hnode.unassigned v hv (mem_definedBy.mpr (.inr ⟨n, hn, List.mem_of_getElem? hs⟩))
    rw [getElem?_outputs_iff hnode.distinct hv, Nat.zero_add]
    simp [hbefore]
  · next hv =>
    have hnone : node.outputs[slot]? ≠ some v := fun hs => hv (List.mem_of_getElem? hs)
    simp [hnone]

/-- A new node reads each of its operands once. -/
theorem users_addReader (h : index.Describes inputs nodes) {node : Node}
    (hfresh : node.id ∉ nodes.map Node.id) (v : ValueId) :
    (if v ∈ node.inputs then addReader node.id (index.readers.getD v [])
      else index.readers.getD v []) =
        ((nodes ++ [node]).filter (·.inputs.contains v)).map Node.id := by
  have husers : index.readers.getD v [] = _ := h.users v
  rw [husers, List.filter_append, List.map_append]
  have hnone : node.id ∉ (nodes.filter (·.inputs.contains v)).map Node.id := by
    intro hm
    obtain ⟨n, hn, hid⟩ := List.mem_map.mp hm
    exact hfresh (List.mem_map.mpr ⟨n, List.mem_of_mem_filter hn, hid⟩)
  by_cases hv : v ∈ node.inputs
  · rw [if_pos hv, addReader, if_neg (by simpa using hnone)]
    simp [hv]
  · simp [hv]

/-- Entering a node keeps the description, extended by the node. -/
theorem enterNode (h : index.Describes inputs nodes) {arena : Nat} {node : Node}
    {index' : GraphIndex} (he : enterNode arena index (node, nodes.length) = .ok index') :
    index'.Describes inputs (nodes ++ [node]) := by
  have hnode := h.mayFollow_of_enterNode he
  obtain ⟨-, -, hnodup, -, rfl⟩ := enterNode_eq_ok.mp he
  refine { position := h.position_insert hnode.fresh, input := ?_, node := ?_, users := ?_ }
  · intro v i
    show (node.outputs.zipIdx.foldl _ index.definitions)[v]? = _ ↔ _
    rw [getElem?_foldl_insert hnodup, ← h.input v i]
    split
    · next hv =>
      have hbefore : index.definition? v ≠ some (.input i) := fun hs =>
        hnode.unassigned v hv
          (mem_definedBy.mpr (.inl (List.mem_of_getElem? ((h.input v i).mp hs))))
      simp [hbefore]
    · exact Iff.rfl
  · intro v id slot
    show (node.outputs.zipIdx.foldl _ index.definitions)[v]? = _ ↔ _
    rw [getElem?_foldl_insert hnodup]
    exact h.node_insert hnode v id slot
  · intro v
    show (node.inputs.foldl _ index.readers).getD v [] = _
    rw [getD_foldl_addReader]
    exact h.users_addReader hnode.fresh v

end Describes

/-! ## Whole graphs -/

/-- The index before any value is entered describes nothing. -/
theorem describes_nil {index : GraphIndex} (hpositions : index.positions = ∅)
    (hreaders : index.readers = ∅) {inputs : List ValueId} (hnodup : inputs.Nodup)
    (hdefinitions : index.definitions = inputs.zipIdx.foldl
      (fun definitions (v, i) => definitions.insert v (.input i)) ∅) :
    index.Describes inputs [] := by
  have hlookup : ∀ v, index.definition? v =
      if v ∈ inputs then some (.input (inputs.idxOf v)) else none := by
    intro v
    show index.definitions[v]? = _
    rw [hdefinitions, getElem?_foldl_insert hnodup]
    simp
  refine { position := ?_, input := ?_, node := ?_, users := ?_ }
  · intro id
    simp [position?, hpositions]
  · intro v i
    rw [hlookup]
    split
    · next hv =>
      constructor
      · intro hi
        simp only [Option.some.injEq, Definition.input.injEq] at hi
        exact hi ▸ List.getElem?_idxOf hv
      · intro hi
        rw [(List.getElem?_inj (List.idxOf_lt_length_iff.mpr hv) hnodup).mp
          ((List.getElem?_idxOf hv).trans hi.symm)]
    · next hv =>
      constructor
      · intro hi
        cases hi
      · intro hi
        exact absurd (List.mem_of_getElem? hi) hv
  · intro v id slot
    rw [hlookup]
    split <;> simp
  · intro v
    simp [users, hreaders]

/-- Entering nodes one after the other succeeds exactly if they are in order. -/
theorem foldlM_enterNode {arena : Nat} {inputs : List ValueId} {start : GraphIndex}
    (hstart : start.Describes inputs []) (harena : ∀ v ∈ inputs, v.index < arena)
    (nodes : List Node) :
    (∀ index, nodes.zipIdx.foldlM (enterNode arena) start = .ok index →
      InOrder arena inputs nodes ∧ index.Describes inputs nodes) ∧
    (InOrder arena inputs nodes →
      ∃ index, nodes.zipIdx.foldlM (enterNode arena) start = .ok index) := by
  induction nodes using List.reverseRecOn with
  | nil =>
    refine ⟨fun index h => ?_, fun _ => ⟨start, rfl⟩⟩
    obtain rfl : start = index := by simpa [pure, Except.pure] using h
    exact ⟨inOrder_nil arena inputs, hstart⟩
  | append_singleton nodes node ih =>
    obtain ⟨ihok, ihex⟩ := ih
    rw [List.zipIdx_append, List.foldlM_append, Nat.zero_add, List.zipIdx_singleton]
    simp only [List.foldlM_cons, List.foldlM_nil, bind_pure]
    constructor
    · intro index h
      cases hn : nodes.zipIdx.foldlM (enterNode arena) start with
      | error e => simp [hn, bind, Except.bind] at h
      | ok next =>
        rw [hn] at h
        obtain ⟨horder, hdesc⟩ := ihok next hn
        exact ⟨inOrder_concat.mpr ⟨horder, hdesc.mayFollow_of_enterNode h⟩, hdesc.enterNode h⟩
    · intro h
      obtain ⟨horder, hnode⟩ := inOrder_concat.mp h
      obtain ⟨next, hn⟩ := ihex horder
      have hknown : ∀ v ∈ definedBy inputs nodes, v.index < arena := by
        intro v hv
        rcases mem_definedBy.mp hv with hv | ⟨n, hmem, hv⟩
        · exact harena v hv
        · obtain ⟨before, after, hsplit⟩ := List.append_of_mem hmem
          exact (horder before n after hsplit).known v hv
      rw [hn]
      exact (ihok next hn).2.exists_enterNode hknown hnode

theorem checkOutput_eq_ok {index : GraphIndex} {v : ValueId} :
    index.checkOutput v = .ok () ↔ v ∈ index.definitions := by
  by_cases hv : v ∈ index.definitions
  · simp [checkOutput, hv]
  · simp [checkOutput, hv]

theorem build_eq_ok {g : Graph} {index : GraphIndex} :
    build g = .ok index ↔
      ∃ start, g.inputs.zipIdx.foldlM
          (fun (index : GraphIndex) (v, i) => index.define g.values.size (.input i) v)
          (⟨∅, ∅, ∅, g.outputs⟩ : GraphIndex) = .ok start ∧
        g.nodes.zipIdx.foldlM (enterNode g.values.size) start = .ok index ∧
        ∀ v ∈ g.outputs, v ∈ index.definitions := by
  unfold build
  simp only [Outcome.bind_eq_ok, Outcome.pure_eq_ok]
  constructor
  · rintro ⟨start, hstart, next, hnext, ⟨⟩, hout, rfl⟩
    exact ⟨start, hstart, hnext, fun v hv => checkOutput_eq_ok.mp (Outcome.forM_eq_ok.mp hout v hv)⟩
  · rintro ⟨start, hstart, hnext, hout⟩
    refine ⟨start, hstart, index, hnext, (), Outcome.forM_eq_ok.mpr fun v hv => ?_, rfl⟩
    exact checkOutput_eq_ok.mpr (hout v hv)

theorem outputs_enterNode {arena : Nat} {index index' : GraphIndex} {entry : Node × Nat}
    (h : enterNode arena index entry = .ok index') : index'.outputs = index.outputs := by
  obtain ⟨-, -, -, -, rfl⟩ := enterNode_eq_ok.mp h
  rfl

theorem outputs_foldlM_enterNode {arena : Nat} {index index' : GraphIndex}
    {entries : List (Node × Nat)} (h : entries.foldlM (enterNode arena) index = .ok index') :
    index'.outputs = index.outputs := by
  induction entries generalizing index with
  | nil => rw [Outcome.pure_eq_ok.mp h]
  | cons entry entries ih =>
    obtain ⟨next, hnext, hrest⟩ := Outcome.foldlM_cons_eq_ok.mp h
    rw [ih hrest, outputs_enterNode hnext]

/-! ## Top theorems -/

/-- The index of a graph describes it, and the graph is in single assignment form. -/
theorem describes_of_build {g : Graph} {index : GraphIndex} (h : build g = .ok index) :
    g.SingleAssignment ∧ index.Describes g.inputs g.nodes ∧ index.outputs = g.outputs := by
  obtain ⟨start, hstart, hnodes, hout⟩ := build_eq_ok.mp h
  obtain ⟨hnodup, hknown, rfl⟩ := foldlM_define_eq_ok.mp hstart
  have hempty : Describes ⟨∅, _, ∅, g.outputs⟩ g.inputs [] := describes_nil rfl rfl hnodup rfl
  have harena : ∀ v ∈ g.inputs, v.index < g.values.size := fun v hv => (hknown v hv).1
  obtain ⟨horder, hdesc⟩ := (foldlM_enterNode hempty harena g.nodes).1 index hnodes
  refine ⟨⟨hnodup, harena, horder, fun v hv => ?_⟩, hdesc, outputs_foldlM_enterNode hnodes⟩
  exact hdesc.mem_definitions.mp (hout v hv)

/-- Every graph in single assignment form has an index. -/
theorem exists_build {g : Graph} (h : g.SingleAssignment) : ∃ index, build g = .ok index := by
  have hstart : g.inputs.zipIdx.foldlM
      (fun (index : GraphIndex) (v, i) => index.define g.values.size (.input i) v)
      (⟨∅, ∅, ∅, g.outputs⟩ : GraphIndex) = .ok _ :=
    foldlM_define_eq_ok.mpr ⟨h.distinct, fun v hv => ⟨h.known v hv, by simp⟩, rfl⟩
  have hempty : Describes ⟨∅, _, ∅, g.outputs⟩ g.inputs [] := describes_nil rfl rfl h.distinct rfl
  obtain ⟨hok, hex⟩ := foldlM_enterNode hempty h.known g.nodes
  obtain ⟨index, hindex⟩ := hex h.nodes
  refine ⟨index, build_eq_ok.mpr ⟨_, hstart, hindex, fun v hv => ?_⟩⟩
  exact (hok index hindex).2.mem_definitions.mpr (h.outputs v hv)

end GraphIndex

/-- Two activations, one after the other. -/
def Graph.activations : Graph where
  name := "activations"
  values := .replicate 3 ⟨.tensor (.of .f32 [2]), none⟩
  nodes := [⟨⟨0⟩, .relu, [⟨0⟩], [⟨1⟩], .empty, none⟩, ⟨⟨1⟩, .tanh, [⟨1⟩], [⟨2⟩], .empty, none⟩]
  inputs := [⟨0⟩]
  outputs := [⟨2⟩]
  nextNode := 2

theorem Graph.singleAssignment_activations : activations.SingleAssignment := by
  decide

end HybridGraph
