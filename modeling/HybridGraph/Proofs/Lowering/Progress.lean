import HybridGraph.Proofs.Execute.Attributes
import HybridGraph.Proofs.Lowering.Pipeline
import Mathlib.Algebra.Order.Ring.Nat
import Mathlib.Data.List.Count
import Mathlib.Data.Prod.Lex
/-!
# What passes report

A pass says that it changed nothing exactly if it leaves the graph as it was, and a pipeline of
passes does too.  For a pipeline this needs that no sequence of changes leads back.  Decompositions
add values, and no pass takes any away.  Where the values stay, there is less to do afterwards
(`Graph.work`): removing nodes leaves fewer; folding trades two operands for an attribute each;
writing defaults out leaves fewer that are absent, or fewer negative axes.  So every change is
progress (`Graph.progress`), of whatever graph, malformed ones included:

    (Step.runAll options steps g).2 = .ok stats →
      Tells Graph.progress stats.changed g (Step.runAll options steps g).1        (reports_runAll)

A group whose passes add no values can thus change something in so many rounds only as there was
work, and under a larger cap it ends with a round that changes nothing
(`Lowered.exists_last_round`).
-/

namespace HybridGraph

/-! ## Flags -/

/-- A flag tells whether something changed: it is down and nothing did, or it is up and a measure
fell. -/
def Tells {α β : Type} [Preorder β] (measure : α → β) (flag : Bool) (a a' : α) : Prop :=
  (flag = false ∧ a' = a) ∨ (flag = true ∧ measure a' < measure a)

namespace Tells

variable {α β : Type} [Preorder β] {measure : α → β} {flag flag' : Bool} {a a' a'' : α}

theorem refl (a : α) : Tells measure false a a := .inl ⟨rfl, rfl⟩

/-- Together two flags tell whether one change or the other did something. -/
theorem trans (h : Tells measure flag a a') (h' : Tells measure flag' a' a'') :
    Tells measure (flag || flag') a a'' := by
  rcases h with ⟨rfl, rfl⟩ | ⟨rfl, hlt⟩
  · exact h'
  · rcases h' with ⟨rfl, rfl⟩ | ⟨rfl, hlt'⟩
    · exact .inr ⟨rfl, hlt⟩
    · exact .inr ⟨rfl, lt_trans hlt' hlt⟩

/-- Nothing that fell is what it was. -/
theorem eq_false_iff (h : Tells measure flag a a') : flag = false ↔ a' = a := by
  rcases h with ⟨rfl, rfl⟩ | ⟨rfl, hlt⟩
  · exact iff_of_true rfl rfl
  · refine iff_of_false (fun hflag => nomatch hflag) ?_
    rintro rfl
    exact lt_irrefl _ hlt

theorem eq_true_iff (h : Tells measure flag a a') : flag = true ↔ a' ≠ a := by
  rw [← Bool.not_eq_false, h.eq_false_iff]

/-- Steps that change something exactly where a test says so. -/
theorem foldl {γ : Type} (step : α → γ → α) {test : α → γ → Bool} (cs : List γ)
    (hstep : ∀ a, ∀ c ∈ cs, Tells measure (test a c) a (step a c)) (a : α) :
    Tells measure (cs.any (test a)) a (cs.foldl step a) := by
  induction cs generalizing a with
  | nil => exact .refl a
  | cons c cs ih =>
    have hrest := ih (fun a c hc => hstep a c (List.mem_cons_of_mem _ hc)) (step a c)
    rw [List.any_cons, List.foldl_cons]
    rcases hstep a c List.mem_cons_self with ⟨htest, heq⟩ | ⟨htest, hlt⟩
    · rw [htest, heq, Bool.false_or]
      rwa [heq] at hrest
    · have hboth := Tells.trans (.inr ⟨rfl, hlt⟩) hrest
      rw [htest]
      exact hboth

end Tells

/-! ## The measure -/

/-- A negative integer may be an axis to wrap. -/
def Attr.work : Attr → Nat
  | .int n => if n < 0 then 1 else 0
  | _ => 0

/-- What is left to do about the attributes of a node of a kind: its defaults that are absent count
twice, since one may itself be negative. -/
def AttrList.work (kind : OpKind) (attrs : AttrList) : Nat :=
  2 * (Defaults.ofKind kind).countP (fun entry => !attrs.contains entry.1) +
    (attrs.entries.map (·.2.work)).sum

/-- What is left to do about a node: an operand counts for more than the attribute that it may
become. -/
def Node.work (node : Node) : Nat := 1 + 2 * node.inputs.length + node.attrs.work node.kind

/-- What is left to do about a graph. -/
def Graph.work (g : Graph) : Nat := (g.nodes.map Node.work).sum

/-- The measure that falls with every change: first more values, then less work. -/
def Graph.progress (g : Graph) : ℕᵒᵈ ×ₗ ℕ := toLex (.toDual g.values.size, g.work)

theorem Graph.progress_lt_iff {g g' : Graph} : g'.progress < g.progress ↔
    g.values.size < g'.values.size ∨ g'.values.size = g.values.size ∧ g'.work < g.work := by
  unfold progress
  rw [Prod.Lex.toLex_lt_toLex, OrderDual.toDual_lt_toDual, OrderDual.toDual_inj]

/-- A change that adds values is progress. -/
theorem Graph.progress_lt_of_size {g g' : Graph} (h : g.values.size < g'.values.size) :
    g'.progress < g.progress := progress_lt_iff.mpr (.inl h)

/-- A change that adds none is progress if it leaves less to do. -/
theorem Graph.progress_lt_of_work {g g' : Graph} (hvalues : g'.values = g.values)
    (h : g'.work < g.work) : g'.progress < g.progress :=
  progress_lt_iff.mpr (.inr ⟨congrArg Array.size hvalues, h⟩)

theorem Attr.work_le (a : Attr) : a.work ≤ 1 := by
  unfold work
  split
  · split <;> decide
  · decide

theorem Node.work_pos (node : Node) : 0 < node.work := by
  unfold work
  omega

open HybridGraph.Graph

/-! ## Defaults -/

/-- Inserting an entry adds its work and takes away that of an earlier entry of the name. -/
theorem work_insertEntry (name : String) (value : Attr) {entries : List (String × Attr)}
    (h : SortedByName entries) :
    ((insertEntry name value entries).map (·.2.work)).sum +
        (entries.lookup name).elim 0 Attr.work =
      (entries.map (·.2.work)).sum + value.work := by
  induction entries with
  | nil => simp [insertEntry]
  | cons head rest ih =>
    obtain ⟨other, held⟩ := head
    obtain ⟨hhead, hrest⟩ := List.pairwise_cons.mp h
    rw [insertEntry, lookup_cons_eq_ite]
    split
    · next hlt =>
      have hne : ∀ {later : String}, name < later → name ≠ later := by
        rintro later hlater rfl
        exact String.lt_irrefl _ hlater
      have hnone : rest.lookup name = none := by
        refine List.lookup_eq_none_iff.mpr fun entry hentry => ?_
        simpa using hne (String.lt_trans hlt (hhead entry hentry))
      simp [hne hlt, hnone, Nat.add_comm]
    · split
      · simp; omega
      · simp; have := ih hrest; omega

namespace AttrList

variable {kind : OpKind} {attrs : AttrList} {name : String} {value : Attr}

/-- The defaults that are absent after an insertion are those that were absent, less the one that
was inserted. -/
theorem countP_absent_insert :
    (Defaults.ofKind kind).countP (fun entry => !(attrs.insert name value).contains entry.1) =
      ((Defaults.ofKind kind).filter fun entry => !attrs.contains entry.1).countP
        fun entry => entry.1 != name := by
  rw [List.countP_filter]
  refine List.countP_congr fun entry _ => ?_
  have hget : (attrs.insert name value).get? entry.1 =
      if entry.1 = name then some value else attrs.get? entry.1 := lookup_insertEntry
  unfold contains
  rw [hget]
  split
  · next heq => simp [heq]
  · next hne => simp [hne]

theorem work_insert_le (kind : OpKind) (attrs : AttrList) (name : String) (value : Attr) :
    (attrs.insert name value).work kind ≤ attrs.work kind + 1 := by
  have hentries := work_insertEntry name value attrs.sorted
  have hvalue := value.work_le
  have habsent := List.countP_le_length (p := fun entry : String × Attr => entry.1 != name)
    (l := (Defaults.ofKind kind).filter fun entry => !attrs.contains entry.1)
  unfold work
  rw [countP_absent_insert, List.countP_eq_length_filter (p := fun entry => !attrs.contains _)]
  show 2 * _ + ((insertEntry name value attrs.entries).map (·.2.work)).sum ≤ _
  omega

/-- A default that was absent is absent no more. -/
theorem work_insert_default {entry : String × Attr} (hentry : entry ∈ Defaults.ofKind kind)
    (habsent : attrs.contains entry.1 = false) :
    (attrs.insert entry.1 entry.2).work kind < attrs.work kind := by
  have hentries := work_insertEntry entry.1 entry.2 attrs.sorted
  have hvalue := entry.2.work_le
  have hfewer := List.countP_lt_length_iff (p := fun other : String × Attr => other.1 != entry.1)
    (l := (Defaults.ofKind kind).filter fun other => !attrs.contains other.1) |>.mpr
      ⟨entry, List.mem_filter.mpr ⟨hentry, by simp [habsent]⟩, by simp⟩
  unfold work
  rw [countP_absent_insert, List.countP_eq_length_filter (p := fun other => !attrs.contains _)]
  show 2 * _ + ((insertEntry entry.1 entry.2 attrs.entries).map (·.2.work)).sum < _
  omega

/-- A negative integer gives way to another one. -/
theorem work_insert_wrapped {n m : Int} (hheld : attrs.get? name = some (.int n)) (hn : n < 0)
    (hm : 0 ≤ m) : (attrs.insert name (.int m)).work kind < attrs.work kind := by
  have hentries := work_insertEntry name (.int m) attrs.sorted
  have habsent := List.countP_le_length (p := fun entry : String × Attr => entry.1 != name)
    (l := (Defaults.ofKind kind).filter fun entry => !attrs.contains entry.1)
  have hlookup : attrs.entries.lookup name = some (.int n) := hheld
  have hone : (Attr.int n).work = 1 := if_pos hn
  have hzero : (Attr.int m).work = 0 := if_neg (by omega)
  rw [hlookup, Option.elim_some, hone, hzero] at hentries
  unfold work
  rw [countP_absent_insert, List.countP_eq_length_filter (p := fun entry => !attrs.contains _)]
  show 2 * _ + ((insertEntry name (.int m) attrs.entries).map (·.2.work)).sum < _
  omega

/-- Few entries leave little to do. -/
theorem work_foldl_le (add : AttrList → String × Attr → AttrList)
    (hadd : ∀ attrs entry, (add attrs entry).work kind ≤ attrs.work kind + 1)
    (entries : List (String × Attr)) (attrs : AttrList) :
    (entries.foldl add attrs).work kind ≤ attrs.work kind + entries.length := by
  induction entries generalizing attrs with
  | nil => exact Nat.le_refl _
  | cons entry entries ih =>
    have hfirst := hadd attrs entry
    have hrest := ih (add attrs entry)
    rw [List.foldl_cons, List.length_cons]
    omega

end AttrList

namespace Node

variable {node : Node} {name : String}

/-- A negative integer is held as an integer. -/
theorem attr?_of_int?_neg {n : Int} (h : node.int? name = some n) (hn : n < 0) :
    node.attr? name = some (.int n) := by
  obtain ⟨held, hheld, hint⟩ := Option.bind_eq_some_iff.mp h
  rw [hheld]
  cases held with
  | int m => rw [Option.some.inj hint]
  | bool b =>
    obtain rfl := Option.some.inj hint
    cases b <;> simp at hn
  | _ => cases hint

end Node

namespace Defaults

variable {kind : OpKind}

theorem tells_addDefault (node : Node) {entry : String × Attr} (hentry : entry ∈ ofKind kind) :
    Tells (·.attrs.work kind) (!node.attrs.contains entry.1) node (addDefault node entry) := by
  unfold addDefault
  cases hcontains : node.attrs.contains entry.1 with
  | true => exact .refl node
  | false => exact .inr ⟨rfl, AttrList.work_insert_default hentry hcontains⟩

theorem tells_wrapAxis (kind : OpKind) (rank : Nat) (node : Node) (name : String) :
    Tells (·.attrs.work kind) (hasWrappable rank node name) node (wrapAxis rank node name) := by
  unfold wrapAxis hasWrappable
  cases haxis : node.int? name with
  | none => exact .refl node
  | some axis =>
    dsimp only
    split
    · next hwrap =>
      have hheld := Node.attr?_of_int?_neg haxis hwrap.1
      exact .inr ⟨by simpa using hwrap, AttrList.work_insert_wrapped hheld hwrap.1 hwrap.2⟩
    · next hwrap => exact .inl ⟨by simpa using hwrap, rfl⟩

/-- No kind has both defaults and axes to wrap. -/
theorem ofKind_eq_nil_or_axisNames_eq_nil (kind : OpKind) :
    ofKind kind = [] ∨ axisNames kind = [] := by
  cases kind <;> first | exact .inl rfl | exact .inr rfl

theorem tells_attrs_normalize (g : Graph) (node : Node) :
    Tells (·.attrs.work node.kind) (isIncomplete g node) node (normalize g node) := by
  unfold normalize isIncomplete
  cases isFolded node with
  | false => exact .refl node
  | true =>
    have hfilled := Tells.foldl addDefault (ofKind node.kind)
      (fun other _ hentry => tells_addDefault other hentry) node
    rw [Bool.true_and, if_pos rfl]
    cases operandRank? g node with
    | none => simpa using hfilled
    | some rank =>
      have hwrapped := Tells.foldl (wrapAxis rank) (axisNames node.kind)
        (fun other name _ => tells_wrapAxis node.kind rank other name)
        ((ofKind node.kind).foldl addDefault node)
      refine Tells.trans hfilled ?_
      rcases ofKind_eq_nil_or_axisNames_eq_nil node.kind with hkind | hkind
      · rw [hkind] at hwrapped ⊢
        exact hwrapped
      · rw [hkind]
        exact .refl _

theorem tells_normalize (g : Graph) (node : Node) :
    Tells Node.work (isIncomplete g node) node (normalize g node) := by
  refine (tells_attrs_normalize g node).imp_right fun ⟨hflag, hlt⟩ => ⟨hflag, ?_⟩
  obtain ⟨attrs, hattrs⟩ := normalize_eq g node
  rw [hattrs] at hlt ⊢
  exact Nat.add_lt_add_left hlt _

/-- Where a change tells of every node, the count of changed nodes tells of all. -/
theorem tells_map {f : Node → Node} {test : Node → Bool}
    (hf : ∀ node, Tells Node.work (test node) node (f node)) (nodes : List Node) :
    Tells (fun nodes : List Node => (nodes.map Node.work).sum)
      ((nodes.filter test).length != 0) nodes (nodes.map f) := by
  induction nodes with
  | nil => exact .refl []
  | cons node nodes ih =>
    rw [List.filter_cons, List.map_cons]
    rcases hf node with ⟨htest, heq⟩ | ⟨htest, hlt⟩
    · rw [htest, heq, if_neg Bool.false_ne_true]
      rcases ih with ⟨hnone, hsame⟩ | ⟨hsome, hlt⟩
      · exact .inl ⟨hnone, by rw [hsame]⟩
      · exact .inr ⟨hsome, by simpa using hlt⟩
    · rw [htest, if_pos rfl]
      refine .inr ⟨by simp, ?_⟩
      rcases ih with ⟨-, hsame⟩ | ⟨-, hlt'⟩
      · simpa [hsame] using hlt
      · simp at hlt' ⊢
        omega

theorem tells_run (g : Graph) : Tells progress ((run g).2 != 0) g (run g).1 := by
  rcases tells_map (tells_normalize g) g.nodes with ⟨hnone, hsame⟩ | ⟨hsome, hlt⟩
  · refine .inl ⟨hnone, ?_⟩
    unfold run
    rw [hsame]
  · exact .inr ⟨hsome, progress_lt_of_work rfl hlt⟩

end Defaults

/-! ## Sweeps that count -/

/-- A sweep keeps the values, and its count grew exactly if the graph changed. -/
structure Counts (state state' : Graph × Nat) : Prop where
  values : state'.1.values = state.1.values
  tells : ∃ k, state'.2 = state.2 + k ∧ Tells progress (k != 0) state.1 state'.1

theorem Counts.refl (state : Graph × Nat) : Counts state state := ⟨rfl, 0, rfl, .refl _⟩

theorem Counts.trans {state state' state'' : Graph × Nat} (h : Counts state state')
    (h' : Counts state' state'') : Counts state state'' := by
  obtain ⟨hvalues, k, hcount, htells⟩ := h
  obtain ⟨hvalues', k', hcount', htells'⟩ := h'
  have hany : (k + k' != 0) = (k != 0 || k' != 0) := by
    cases k <;> simp
  exact ⟨hvalues'.trans hvalues, k + k', by omega, hany ▸ htells.trans htells'⟩

/-- One more was counted, and there is less to do. -/
theorem Counts.one {state : Graph × Nat} {g' : Graph} (hvalues : g'.values = state.1.values)
    (h : g'.work < state.1.work) : Counts state (g', state.2 + 1) :=
  ⟨hvalues, 1, rfl, .inr ⟨rfl, progress_lt_of_work hvalues h⟩⟩

/-- Visits one after another. -/
theorem Counts.foldl {α : Type} {visit : Graph × Nat → α → Graph × Nat}
    (hvisit : ∀ state a, Counts state (visit state a)) (as : List α) (state : Graph × Nat) :
    Counts state (as.foldl visit state) := by
  induction as generalizing state with
  | nil => exact .refl state
  | cons a as ih => exact (hvisit state a).trans (ih (visit state a))

/-- The whole sweep. -/
theorem Counts.tells_count {g : Graph} {state : Graph × Nat} (h : Counts (g, 0) state) :
    Tells progress (state.2 != 0) g state.1 := by
  obtain ⟨-, k, hcount, htells⟩ := h
  rwa [hcount, Nat.zero_add]

namespace Folding

variable {g : Graph} {id : NodeId}

/-- Changing a node of the graph changes nothing else. -/
theorem exists_split_updateNode {node : Node} (h : g.node? id = some node) (change : Node → Node) :
    ∃ before after, g.nodes = before ++ node :: after ∧
      (g.updateNode id change).nodes = before ++ change node :: after := by
  obtain ⟨hid, before, after, hsplit, hbefore⟩ := List.find?_eq_some_iff_append.mp h
  refine ⟨before, after, hsplit, ?_⟩
  show updateFirst id change g.nodes = _
  rw [hsplit]
  clear hsplit h
  induction before with
  | nil => exact if_pos (by simpa using hid)
  | cons first before ih =>
    obtain ⟨hfirst, hrest⟩ := List.forall_mem_cons.mp hbefore
    rw [List.cons_append, updateFirst, if_neg (by simpa using hfirst), ih hrest, List.cons_append]

/-- Operands count for more than the attributes that they become. -/
theorem work_foldAttributes {node folded : Node} (h : foldAttributes? g node = some folded) :
    folded.work < node.work := by
  obtain ⟨count, entries, -, hlt, hle, hentries, rfl⟩ := foldAttributes?_eq_some.mp h
  have hlength : entries.length = node.inputs.length - count := by
    rw [← (Outcome.mapM_eq_some.mp hentries).length_eq, List.length_zip, List.length_drop]
    omega
  have hattrs : (entries.foldl addFolded node.attrs).work node.kind ≤
      node.attrs.work node.kind + entries.length := by
    refine AttrList.work_foldl_le addFolded (fun attrs entry => ?_) entries node.attrs
    unfold addFolded
    split
    · omega
    · exact AttrList.work_insert_le _ _ _ _
  unfold Node.work
  simp only [List.length_take]
  omega

theorem work_foldOther {node folded : Node} (h : foldOther? g node = some folded) :
    folded.work < node.work := by
  obtain ⟨x, y, other, -, hinputs, -, rfl⟩ := foldOther?_eq_some.mp h
  have hattrs := AttrList.work_insert_le node.kind node.attrs "other" (.float other)
  unfold Node.work
  simp only [hinputs, List.length_cons, List.length_nil]
  omega

theorem counts_applyFold (fold? : Graph → Node → Option Node)
    (hfold : ∀ {g node folded}, fold? g node = some folded → folded.work < node.work)
    (id : NodeId) (state : Graph × Nat) : Counts state (applyFold fold? id state) := by
  unfold applyFold
  cases hnode : (state.1.node? id).bind (fold? state.1) with
  | none => exact .refl state
  | some folded =>
    obtain ⟨node, hfind, hfolded⟩ := Option.bind_eq_some_iff.mp hnode
    obtain ⟨before, after, hsplit, hupdated⟩ := exists_split_updateNode hfind fun _ => folded
    have hlt := hfold hfolded
    refine .one rfl ?_
    unfold work
    rw [hsplit, hupdated]
    simp
    omega

theorem counts_visit (state : Graph × Nat) (id : NodeId) : Counts state (visit state id) :=
  (counts_applyFold foldAttributes? work_foldAttributes id state).trans
    (counts_applyFold foldOther? work_foldOther id _)

theorem counts_run (g : Graph) : Counts (g, 0) (run g) := .foldl counts_visit g.nodeIds (g, 0)

end Folding

/-! ## Nodes that go -/

/-- Reading other values is as much work. -/
theorem Node.work_replaceInput (old new : ValueId) (nodes : List Node) :
    (nodes.map (Node.replaceInput old new)).map work = nodes.map work := by
  rw [List.map_map]
  refine List.map_congr_left fun node _ => ?_
  show (node.replaceInput old new).work = node.work
  unfold replaceInput work
  rw [List.length_map]

/-- Every node that goes was some work. -/
theorem sum_work_filter_le (p : Node → Bool) (nodes : List Node) :
    ((nodes.filter p).map Node.work).sum + (nodes.length - (nodes.filter p).length) ≤
      (nodes.map Node.work).sum := by
  induction nodes with
  | nil => exact Nat.le_refl _
  | cons node nodes ih =>
    have hle := List.length_filter_le p nodes
    have hpos := node.work_pos
    rw [List.filter_cons]
    split
    · simp only [List.map_cons, List.sum_cons, List.length_cons]
      omega
    · simp only [List.map_cons, List.sum_cons, List.length_cons]
      omega

namespace Identities

/-- Retiring a node that is there leaves less to do. -/
theorem work_retire_lt {g : Graph} {node : Node} (hn : node ∈ g.nodes) (old new : ValueId) :
    (g.retire node.id old new).work < g.work := by
  have hgone : ∃ n ∈ g.nodes.map (Node.replaceInput old new),
      ¬ (!List.contains [node.id] n.id) = true :=
    ⟨node.replaceInput old new, List.mem_map_of_mem hn, by simp [Node.replaceInput]⟩
  have hfewer := List.length_filter_lt_length_iff_exists.mpr hgone
  have hle := sum_work_filter_le (fun n : Node => !List.contains [node.id] n.id)
    (g.nodes.map (Node.replaceInput old new))
  rw [Node.work_replaceInput] at hle
  show (List.map Node.work (List.filter _ (g.nodes.map _))).sum < (g.nodes.map Node.work).sum
  omega

theorem counts_visit (state : Graph × Nat) (id : NodeId) : Counts state (visit state id) := by
  unfold visit
  cases hfind : state.1.node? id with
  | none => exact .refl state
  | some node =>
    obtain ⟨hn, rfl⟩ := mem_of_node? hfind
    dsimp only
    split
    · exact .one rfl (work_retire_lt hn _ _)
    · exact .refl state

theorem counts_run (g : Graph) : Counts (g, 0) (run g) := .foldl counts_visit (found g) (g, 0)

/-- A node that is visited goes alone. -/
theorem length_visit {state : Graph × Nat} {id : NodeId} (h : state.1.WellFormed)
    (hid : ∀ node ∈ state.1.nodes, node.id = id → IsNeutral node.kind) :
    (visit state id).1.nodes.length + (visit state id).2 =
      state.1.nodes.length + state.2 := by
  unfold visit
  cases hfind : state.1.node? id with
  | none => rfl
  | some node =>
    obtain ⟨hn, rfl⟩ := mem_of_node? hfind
    obtain ⟨out, hout⟩ := h.exists_output hn (hid node hn rfl).outputArity
    obtain ⟨before, after, hsplit⟩ := List.append_of_mem hn
    dsimp only
    split
    · next x xs _ _ _ houtputs =>
      rw [hout] at houtputs
      obtain ⟨rfl, -⟩ := List.cons.inj houtputs
      rw [nodes_retire x h.form hsplit hout, hsplit]
      simp
      omega
    · rfl

theorem length_foldl_visit (ids : List NodeId) {state : Graph × Nat} (h : state.1.WellFormed)
    (hids : state.1.OfKind IsNeutral ids) :
    (ids.foldl visit state).1.nodes.length + (ids.foldl visit state).2 =
      state.1.nodes.length + state.2 := by
  induction ids generalizing state with
  | nil => rfl
  | cons id ids ih =>
    have hid := (hids id List.mem_cons_self).2
    have hfirst := preserves_visit h hid
    have hrest : state.1.OfKind IsNeutral ids := fun other ho =>
      hids other (List.mem_cons_of_mem _ ho)
    exact (ih hfirst.wellFormed (hrest.of_preserves hfirst)).trans (length_visit h hid)

/-- The nodes that go are counted. -/
theorem length_run {g : Graph} (h : g.WellFormed) :
    (run g).1.nodes.length + (run g).2 = g.nodes.length := by
  refine length_foldl_visit (found g) h (ofKind_map_id h List.filter_sublist.subset ?_)
  exact fun node hn => isNeutral_of_isIdentity (List.mem_filter.mp hn).2

end Identities

namespace DeadCode

theorem length_run (g : Graph) : (run g).1.nodes.length + (run g).2 = g.nodes.length := by
  have hle := List.length_filter_le (fun node => (kept g).contains node.id) g.nodes
  show (g.nodes.filter _).length + (g.nodes.length - (g.nodes.filter _).length) = g.nodes.length
  omega

theorem tells_run (g : Graph) : Tells progress ((run g).2 != 0) g (run g).1 := by
  have hwork := sum_work_filter_le (fun node => (kept g).contains node.id) g.nodes
  by_cases hnone : (run g).2 = 0
  · have hsame : g.nodes.filter (fun node => (kept g).contains node.id) = g.nodes := by
      refine List.filter_eq_self.mpr (List.length_filter_eq_length_iff.mp ?_)
      have hlength := length_run g
      rwa [hnone] at hlength
    refine .inl ⟨by simpa using hnone, ?_⟩
    show { g with nodes := g.nodes.filter _ } = g
    rw [hsame]
  · refine .inr ⟨by simpa using hnone, progress_lt_of_work rfl ?_⟩
    change ¬ g.nodes.length - (g.nodes.filter _).length = 0 at hnone
    show ((g.nodes.filter _).map Node.work).sum < (g.nodes.map Node.work).sum
    omega

end DeadCode

/-! ## Nodes that are replaced -/

/-- What a pass reports tells whether it changed the graph, if it ends well. -/
def Lowered.Reports (lowered : Lowered) (g : Graph) : Prop :=
  ∀ stats, lowered.2 = .ok stats → Tells progress stats.changed g lowered.1

namespace Expansion

variable {e : Expansion}

@[simp]
theorem size_emit (kind : OpKind) (inputs : List ValueId) (type : ValueType) (attrs : AttrList) :
    (e.emit kind inputs type attrs).1.graph.values.size = e.graph.values.size + 1 :=
  Array.size_push _

@[simp]
theorem size_emitScalar (kind : OpKind) (x : ValueId) (other : Float) (type : ValueType) :
    (e.emitScalar kind x other type).1.graph.values.size = e.graph.values.size + 1 :=
  Array.size_push _

/-- An expansion begins with the graph as it is. -/
theorem graph_of_before? {g : Graph} {id : NodeId} (h : before? g id = some e) : e.graph = g := by
  obtain ⟨position, -, h⟩ := Option.bind_eq_some_iff.mp h
  obtain ⟨node, -, h⟩ := Option.bind_eq_some_iff.mp h
  rw [← Option.some.inj h]

end Expansion

namespace Decomposition

open Expansion

variable {g g' : Graph} {node : Node}

/-- Replacing a node by what was emitted adds the emitted values. -/
theorem size_of_finish {id : NodeId} {old : ValueId} {emitted : Expansion × ValueId}
    (h : finish id old emitted = .replaced g') :
    g'.values.size = emitted.1.graph.values.size := by
  rw [← Verdict.replaced.inj h]
  rfl

theorem size_lt_of_linear (h : linear g node = .replaced g') :
    g.values.size < g'.values.size := by
  unfold linear at h
  split at h
  · next x weight rest _ =>
    split at h
    · cases h
    · dsimp only at h
      split at h
      · cases h
      · split at h
        · next e _ hbefore =>
          rw [size_of_finish h, ← graph_of_before? hbefore]
          cases rest.head? with
          | none =>
            simp only [emitLinear, Prod.mk.eta, size_emit]
            omega
          | some bias =>
            simp only [emitLinear, size_emit]
            omega
        · cases h
  · cases h

theorem size_lt_of_silu (h : silu g node = .replaced g') : g.values.size < g'.values.size := by
  unfold silu at h
  split at h
  · next hbefore =>
    rw [size_of_finish h, ← graph_of_before? hbefore]
    simp only [emitSilu, size_emit]
    omega
  · cases h

theorem size_lt_emitGelu {e : Expansion} (x : ValueId) (useTanh : Bool)
    (type outType : ValueType) :
    e.graph.values.size < (emitGelu e x useTanh type outType).1.graph.values.size := by
  cases useTanh with
  | true =>
    simp only [emitGelu, ↓reduceIte, emitTanhTerm, size_emit, size_emitScalar]
    omega
  | false =>
    simp only [emitGelu, Bool.false_eq_true, ↓reduceIte, emitErfTerm, size_emit, size_emitScalar]
    omega

theorem size_lt_of_gelu {options : LoweringOptions} (h : gelu options g node = .replaced g') :
    g.values.size < g'.values.size := by
  unfold gelu at h
  split at h
  · split at h
    · cases h
    · split at h
      · next hbefore =>
        rw [size_of_finish h, ← graph_of_before? hbefore]
        exact size_lt_emitGelu _ _ _ _
      · cases h
  · cases h

namespace Decomposes

variable {kind : OpKind} {visit : Graph → Node → Verdict}

/-- A decomposition that replaces a node adds values. -/
theorem size_lt (hd : Decomposes kind visit) (h : visit g node = .replaced g') :
    g.values.size < g'.values.size := by
  cases hd with
  | linear => exact size_lt_of_linear h
  | silu => exact size_lt_of_silu h
  | gelu options => exact size_lt_of_gelu h

theorem exists_tells_visitAll (hd : Decomposes kind visit) (pass : String) (ids : List NodeId)
    {count : Nat} {stats : PassStats} (hstats : (visitAll pass visit g count ids).2 = .ok stats) :
    ∃ k, stats = .ofModified (count + k) ∧
      Tells progress (k != 0) g (visitAll pass visit g count ids).1 := by
  induction ids generalizing g count with
  | nil =>
    obtain rfl := Except.ok.inj hstats
    exact ⟨0, rfl, .refl g⟩
  | cons id ids ih =>
    rw [visitAll] at hstats ⊢
    cases hnode : g.node? id with
    | none =>
      simp only [hnode] at hstats ⊢
      exact ih hstats
    | some node =>
      cases hv : visit g node with
      | keep =>
        simp only [hnode, hv] at hstats ⊢
        exact ih hstats
      | replaced g' =>
        simp only [hnode, hv] at hstats ⊢
        obtain ⟨k, hcount, htells⟩ := ih hstats
        refine ⟨k + 1, by rw [hcount]; congr 1; omega, ?_⟩
        exact Tells.trans (.inr ⟨rfl, progress_lt_of_size (hd.size_lt hv)⟩) htells
      | refuse fault =>
        simp only [hnode, hv] at hstats
        cases hstats

theorem exists_tells_visitKind (hd : Decomposes kind visit) (pass : String) {stats : PassStats}
    (hstats : (visitKind pass kind visit g).2 = .ok stats) :
    ∃ k, stats = .ofModified k ∧ Tells progress (k != 0) g (visitKind pass kind visit g).1 := by
  obtain ⟨k, hcount, htells⟩ := hd.exists_tells_visitAll pass _ hstats
  exact ⟨k, by rw [hcount, Nat.zero_add], htells⟩

theorem reports_visitKind (hd : Decomposes kind visit) (pass : String) :
    (visitKind pass kind visit g).Reports g := by
  intro stats hstats
  obtain ⟨k, rfl, htells⟩ := hd.exists_tells_visitKind pass hstats
  exact htells

end Decomposes

end Decomposition

/-! ## Passes and steps -/

variable {g : Graph} (options : LoweringOptions)

theorem Lowered.reports_ok {g g' : Graph} {stats : PassStats}
    (h : Tells progress stats.changed g g') : Reports (g', .ok stats) g := by
  rintro _ ⟨⟩
  exact h

theorem Pass.reports_run (pass : Pass) (g : Graph) : (pass.run options g).Reports g := by
  cases pass with
  | verify =>
    intro stats hstats
    rw [run] at hstats
    cases hverify : g.verify with
    | error cause =>
      rw [hverify] at hstats
      cases hstats
    | ok _ =>
      rw [hverify] at hstats
      obtain rfl := Except.ok.inj hstats
      exact .refl g
  | fold => exact Lowered.reports_ok (Folding.counts_run g).tells_count
  | normalize => exact Lowered.reports_ok (Defaults.tells_run g)
  | identities => exact Lowered.reports_ok (Identities.counts_run g).tells_count
  | linear => exact Decomposition.Decomposes.linear.reports_visitKind _
  | silu => exact Decomposition.Decomposes.silu.reports_visitKind _
  | gelu => exact (Decomposition.Decomposes.gelu options).reports_visitKind _
  | deadCode => exact Lowered.reports_ok (DeadCode.tells_run g)

namespace Lowered

theorem Reports.andThen {first : Lowered} (h : first.Reports g) {next : Graph → Lowered}
    (hnext : ∀ g : Graph, (next g).Reports g) : (first.andThen next).Reports g := by
  intro total htotal
  obtain ⟨mid, stats, later, rfl, hlast, rfl⟩ := andThen_eq_ok.mp (Prod.ext rfl htotal)
  have hrest := hnext mid later (congrArg Prod.snd hlast)
  rw [hlast] at hrest
  exact (h stats rfl).trans hrest

/-- Rounds stop at the first one that changes nothing. -/
theorem reports_iterate {body : Graph → Lowered} (hbody : ∀ g : Graph, (body g).Reports g)
    (cap : Nat) (g : Graph) : (iterate body cap g).Reports g := by
  induction cap generalizing g with
  | zero => exact reports_ok (.refl g)
  | succ cap ih =>
    have hfirst := hbody g
    rw [iterate]
    split
    · intro stats hstats
      cases hstats
    · next g' stats heq =>
      rw [heq] at hfirst
      have hround : Reports (g', .ok (countIteration stats)) g := reports_ok (hfirst stats rfl)
      split
      · exact hround.andThen ih
      · exact hround

/-- Under a large cap a group whose rounds add no values ends with a round that changes nothing. -/
theorem exists_last_round {body : Graph → Lowered} (hbody : ∀ g : Graph, (body g).Reports g)
    (hvalues : ∀ g : Graph, (body g).1.values = g.values) {cap : Nat} (hcap : g.work < cap)
    {stats : PassStats} (hstats : (iterate body cap g).2 = .ok stats) :
    ∃ last : PassStats, last.changed = false ∧
      body (iterate body cap g).1 = ((iterate body cap g).1, .ok last) := by
  induction cap generalizing g stats with
  | zero => omega
  | succ cap ih =>
    have hfirst := hbody g
    have hsame := hvalues g
    rw [iterate] at hstats ⊢
    split at hstats
    · cases hstats
    · next g' last heq =>
      rw [heq] at hfirst hsame
      have htells := hfirst last rfl
      dsimp only at htells hsame ⊢
      cases hchanged : last.changed with
      | false =>
        obtain rfl := htells.eq_false_iff.mp hchanged
        exact ⟨last, hchanged, heq⟩
      | true =>
        rw [hchanged, if_pos rfl] at hstats
        rcases htells with ⟨hflag, -⟩ | ⟨-, hlt⟩
        · rw [hchanged] at hflag
          cases hflag
        · obtain ⟨_, _, rest, ⟨⟩, hrest, -⟩ := andThen_eq_ok.mp (Prod.ext rfl hstats)
          rw [progress_lt_iff, hsame] at hlt
          exact ih (by omega) (congrArg Prod.snd hrest)

end Lowered

namespace Step

mutual

theorem reports_run (step : Step) (g : Graph) : (run options step g).Reports g := by
  cases step with
  | pass pass => exact pass.reports_run options g
  | fixedPoint cap steps =>
    exact Lowered.reports_iterate (fun g => reports_runAll steps g) _ g

/-- What a pipeline reports tells whether it changed the graph. -/
theorem reports_runAll (steps : List Step) (g : Graph) : (runAll options steps g).Reports g := by
  cases steps with
  | nil => exact Lowered.reports_ok (.refl g)
  | cons step steps => exact (reports_run step g).andThen fun g => reports_runAll steps g

end

end Step

/-! ## Top theorem -/

/-- Passes and pipelines that end well report a change exactly if they leave another graph, and the
passes that remove nodes count them. -/
theorem Graph.changed_iff_ne (hg : g.verify = .ok ())
    (hids : ∀ node ∈ g.nodes, node.id.number < g.nextNode) :
    (∀ (pass : Pass) stats, (pass.run options g).2 = .ok stats →
      (stats.changed = false ↔ (pass.run options g).1 = g)) ∧
    (∀ pass ∈ [Pass.identities, .deadCode], ∃ stats, (pass.run options g).2 = .ok stats ∧
      (pass.run options g).1.nodes.length + stats.erased = g.nodes.length) ∧
    ∀ steps stats, (Step.runAll options steps g).2 = .ok stats →
      (stats.changed = true ↔ (Step.runAll options steps g).1 ≠ g) := by
  have h : g.WellFormed := wellFormed_iff.mpr ⟨hg, hids⟩
  refine ⟨fun pass stats hstats => ?_, fun pass hpass => ?_, fun steps stats hstats => ?_⟩
  · exact (pass.reports_run options g stats hstats).eq_false_iff
  · rcases hpass with _ | ⟨_, _ | ⟨_, ⟨⟩⟩⟩
    · exact ⟨_, rfl, Identities.length_run h⟩
    · exact ⟨_, rfl, DeadCode.length_run g⟩
  · exact (Step.reports_runAll options steps g stats hstats).eq_true_iff

theorem Graph.changed_iff_ne_gated :
    gated.verify = .ok () ∧ (∀ node ∈ gated.nodes, node.id.number < gated.nextNode) ∧
      (Pass.linear.run {} gated).1 = gated ∧ (Pass.identities.run {} gated).1 ≠ gated := by
  have hissued : ∀ node ∈ gated.nodes, node.id.number < gated.nextNode := by decide
  have hreports := (changed_iff_ne {} verify_gated hissued).1
  refine ⟨verify_gated, hissued, (hreports .linear (.ofModified 0) rfl).mp rfl, fun hsame => ?_⟩
  exact absurd ((hreports .identities (.ofErased 1) rfl).mpr hsame) (by decide)

end HybridGraph
