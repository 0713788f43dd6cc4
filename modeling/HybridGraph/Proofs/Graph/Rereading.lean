import HybridGraph.Proofs.Build.Numbering
import HybridGraph.Proofs.Graph.Numbered
import HybridGraph.Proofs.Graph.Spelling
import HybridGraph.Proofs.Kernel.Stored
/-!
# Parts of graph texts, read back

What the printer writes for a part of a graph is read as that part, if its names, attributes and
types are legible (`Graph.Legible`): names hold none of the reader's marks, strings no quotes,
brackets and line ends, and numbers are what their literals are read as.  A reader that has met all
values in front of a part (`Reads`) finds them under their labels and goes on to those that the
part defines.

    header (headerChars g) = .ok s, and s has read the inputs                    (exists_header)
    call s (callChars g node) = .ok ⟨node.kind, read, node.inputs⟩                 (exists_call)
    (node.outputs.map (resultOf g)).foldlM defineResult (s, ⟨node.kind, read, node.inputs⟩, []) =
      .ok (s', ⟨node.kind, node.attrs, node.inputs⟩, node.outputs)                 (exists_node)

Here `read` are the attributes of the node with the list of its elements in the place of a tensor:
the payload of a constant becomes a tensor again when its result is defined.
-/

namespace HybridGraph

namespace Graph

variable {g : Graph} {v w : ValueId}

/-- A name that is cut out again. -/
structure LegibleName (name : String) : Prop where
  bare : Source.Bare name.toList
  last : ∀ c ∈ name.toList.getLast?, Text.isBlank c = false

/-- The texts and numbers in a graph can be read from its text. -/
structure Legible (g : Graph) : Prop where
  ne_empty : g.name ≠ ""
  tight : Text.Tight g.name.toList
  line : ∀ c ∈ g.name.toList, c ≠ '(' ∧ c ≠ '\n'
  types : ∀ v info, g.value? v = some info → info.type.Legible
  names : ∀ v name, g.name? v = some name → LegibleName name
  attrs : ∀ node ∈ g.nodes, ∀ e ∈ node.attrs.entries, LegibleEntry e
  scopes : ∀ node ∈ g.nodes, ∀ scope, node.scope = some scope →
    Text.Tight scope.toList ∧ '\n' ∉ scope.toList

theorem value?_of_name? {name : String} (h : g.name? v = some name) :
    g.value? v = some ⟨g.typeOf v, some name⟩ := by
  obtain ⟨info, hinfo, hname⟩ := Option.bind_eq_some_iff.mp h
  rw [hinfo, typeOf, type?, hinfo, ← hname]
  rfl

theorem toList_label {name : String} (h : g.name? v = some name) :
    (g.label v).toList = '%' :: name.toList := by
  have hlabel : g.label v = "%" ++ name := by
    unfold label
    rw [show (g.value? v).bind ValueInfo.name = some name from h]
  rw [hlabel, String.toList_append]
  rfl

theorem toList_binding (v : ValueId) : (g.binding v).toList =
    (g.label v).toList ++ ' ' :: ':' :: ' ' :: (g.typeOf v).source.toList := by
  simp [binding, toString]

theorem toList_labels (vs : List ValueId) : (g.labels vs).toList =
    [',', ' '].intercalate (vs.map fun v => (g.label v).toList) := by
  simp [labels, Function.comp_def]

theorem toList_bindings (vs : List ValueId) : (g.bindings vs).toList =
    [',', ' '].intercalate (vs.map fun v => (g.binding v).toList) := by
  simp [bindings, Function.comp_def]

end Graph

namespace Source

open HybridGraph.Graph

variable {g : Graph} {v : ValueId} {name : String}

/-! ## Labels and bindings -/

theorem token_label (hname : g.name? v = some name) (h : LegibleName name) :
    Token (g.label v).toList := by
  have hmark : Bare ['%'] := by unfold Bare; decide
  rw [toList_label hname]
  refine ⟨(Piece.of_bare hmark).append (.of_bare h.bare), ⟨?_, fun c hc => ?_⟩,
    List.cons_ne_nil _ _⟩
  · simp
    decide
  · rw [List.getLast?_cons] at hc
    cases hlast : name.toList.getLast? with
    | none =>
      rw [hlast] at hc
      obtain rfl := Option.some.inj hc
      decide
    | some d =>
      rw [hlast] at hc
      obtain rfl := Option.some.inj hc
      exact h.last _ hlast

/-- Labels have no parentheses. -/
theorem round_label (hname : g.name? v = some name) (h : LegibleName name) :
    Nested '(' ')' (g.label v).toList := by
  have hopening := h.bare.notMem (by decide : '(' ∈ marks)
  have hclosing := h.bare.notMem (by decide : ')' ∈ marks)
  rw [toList_label hname]
  exact .of_notMem (by simp [hopening]) (by simp [hclosing])

theorem typeText_binding (hname : g.name? v = some name) (h : LegibleName name) :
    TypeText (g.binding v).toList := by
  have htype := typeText_source (g.typeOf v)
  have hlabel := token_label hname h
  have hassignment := h.bare.notMem (by decide : '=' ∈ marks)
  have hmiddle : Piece [' ', ':', ' '] := {
    passes := fun _ => .of_notMem (by decide)
    square := .of_notMem (by decide) (by decide)
    scope := by decide
    line := by decide }
  have hround : Nested '(' ')' [' ', ':', ' '] := .of_notMem (by decide) (by decide)
  rw [toList_binding]
  exact {
    toPiece := hlabel.toPiece.append (hmiddle.append htype.toPiece)
    tight := by
      have haround := htype.tight.around (by decide : Text.isBlank '%' = false)
        (name.toList ++ [' ', ':', ' ']) htype.ne_nil
      rw [toList_label hname]
      simpa using haround
    ne_nil := by simp
    round := (round_label hname h).append (hround.append htype.round)
    assignment := by
      rw [toList_label hname]
      simp [hassignment, htype.assignment] }

/-- A binding is read as a name and the text of a type. -/
theorem binding_binding (hname : g.name? v = some name) (h : LegibleName name) :
    binding (g.binding v).toList = .ok (name, (g.typeOf v).source.toList) := by
  have hcolon : ':' ∉ (g.label v).toList ++ [' '] := by
    have hbare := h.bare.notMem (by decide : ':' ∈ marks)
    rw [toList_label hname]
    simp [hbare]
  have hsplit := Text.splitFirst_append hcolon (' ' :: (g.typeOf v).source.toList)
  have hbefore : Text.trim ((g.label v).toList ++ [' ']) = '%' :: name.toList := by
    rw [Text.trim_concat_of_blank (by decide), (token_label hname h).tight.trim_eq,
      toList_label hname]
  have htype : Text.trim (' ' :: (g.typeOf v).source.toList) = (g.typeOf v).source.toList := by
    rw [Text.trim_cons_of_blank (by decide), (typeText_source _).tight.trim_eq]
  have htext : (g.binding v).toList =
      ((g.label v).toList ++ [' ']) ++ ':' :: ' ' :: (g.typeOf v).source.toList := by
    rw [toList_binding]
    simp
  rw [binding, htext, hsplit]
  simp only [hbefore, htype, String.ofList_toList]

theorem resultBinding_binding (hname : g.name? v = some name) (h : LegibleName name)
    (htype : (g.typeOf v).Legible) :
    resultBinding (g.binding v).toList = .ok (name, g.typeOf v) :=
  Outcome.bind_eq_ok.mpr ⟨_, binding_binding hname h,
    Outcome.bind_eq_ok.mpr ⟨_, type_source htype, rfl⟩⟩

/-! ## Lists of labels and bindings -/

section

variable {vs : List ValueId} (hg : g.Numbered) (hlegible : g.Legible)
  (hvs : ∀ v ∈ vs, v.index < g.values.size)

include hg hlegible hvs

theorem token_labels : ∀ text ∈ vs.map fun v => (g.label v).toList,
    Token text ∧ Nested '(' ')' text := by
  intro text htext
  obtain ⟨v, hv, rfl⟩ := List.mem_map.mp htext
  obtain ⟨name, hname⟩ := hg.named v (hvs v hv)
  have hlegible := hlegible.names v name hname
  exact ⟨token_label hname hlegible, round_label hname hlegible⟩

theorem commaList_labels :
    commaList (g.labels vs).toList = vs.map fun v => (g.label v).toList := by
  have htexts := token_labels hg hlegible hvs
  have hcut := commaList_intercalate (fun text htext => (htexts text htext).1.item) (.inl rfl)
  rwa [List.append_nil, ← toList_labels] at hcut

/-- Labels stand between parentheses. -/
theorem nested_labels : Nested '(' ')' (g.labels vs).toList := by
  rw [toList_labels]
  exact .intercalate (.of_notMem (by decide) (by decide)) fun text htext =>
    (token_labels hg hlegible hvs text htext).2

theorem piece_labels : ∀ text ∈ vs.map fun v => (g.label v).toList, Piece text :=
  fun text htext => (token_labels hg hlegible hvs text htext).1.toPiece

theorem typeText_bindings : ∀ text ∈ vs.map fun v => (g.binding v).toList, TypeText text := by
  intro text htext
  obtain ⟨v, hv, rfl⟩ := List.mem_map.mp htext
  obtain ⟨name, hname⟩ := hg.named v (hvs v hv)
  exact typeText_binding hname (hlegible.names v name hname)

/-- Bindings are cut apart; a blank may follow. -/
theorem commaList_bindings {tail : List Char} (htail : tail = [] ∨ tail = [' ']) :
    commaList ((g.bindings vs).toList ++ tail) = vs.map fun v => (g.binding v).toList := by
  have htexts := typeText_bindings hg hlegible hvs
  rw [toList_bindings]
  exact commaList_intercalate (fun text htext => (htexts text htext).item) htail

/-- Bindings stand between parentheses. -/
theorem nested_bindings : Nested '(' ')' (g.bindings vs).toList := by
  rw [toList_bindings]
  exact .intercalate (.of_notMem (by decide) (by decide)) fun text htext =>
    (typeText_bindings hg hlegible hvs text htext).round

/-- Bindings stay on their line, in front of the scope. -/
theorem notMem_bindings {c : Char} (hc : c ∈ ['#', '\n']) : c ∉ (g.bindings vs).toList := by
  rw [toList_bindings]
  exact Piece.notMem_intercalate
    (fun text htext => (typeText_bindings hg hlegible hvs text htext).toPiece) hc

theorem assignment_bindings : '=' ∉ (g.bindings vs).toList := by
  rw [toList_bindings]
  exact notMem_intercalate (by decide) fun text htext =>
    (typeText_bindings hg hlegible hvs text htext).assignment

end

/-! ## States of the reader -/

/-- The reader has seen the values of the graph up to some place, and their names. -/
structure Reads (g : Graph) (s : State) : Prop where
  size : s.graph.values.size ≤ g.values.size
  values : ∀ v, v.index < s.graph.values.size → s.graph.value? v = g.value? v
  names : ∀ name v, s.names.lookup name = some v ↔
    v.index < s.graph.values.size ∧ g.name? v = some name

namespace Reads

variable {s : State}

theorem lookup_label (h : Reads g s) (hlegible : g.Legible) (hg : g.Numbered)
    (hv : v.index < s.graph.values.size) : lookup s.names (g.label v).toList = .ok v := by
  obtain ⟨name, hname⟩ := hg.named v (Nat.lt_of_lt_of_le hv h.size)
  have htrim := (token_label hname (hlegible.names v name hname)).tight.trim_eq
  rw [lookup, htrim, toList_label hname]
  simp only [String.ofList_toList, (h.names name v).mpr ⟨hv, hname⟩]

/-- Operands are found under their labels. -/
theorem mapM_lookup_labels (h : Reads g s) (hg : g.Numbered) (hlegible : g.Legible)
    {vs : List ValueId} (hvs : ∀ v ∈ vs, v.index < s.graph.values.size) :
    (vs.map fun v => (g.label v).toList).mapM (lookup s.names) = .ok vs := by
  rw [Outcome.mapM_eq_ok, List.forall₂_map_left_iff, List.forall₂_same]
  exact fun v hv => h.lookup_label hlegible hg (hvs v hv)

/-- The next value of the graph gets its name. -/
theorem define (h : Reads g s) (hg : g.Numbered) (hv : v.index = s.graph.values.size)
    (hname : g.name? v = some name) {g' : Graph}
    (hvalues : g'.values = s.graph.values.push ⟨g.typeOf v, some name⟩) :
    State.define ⟨g', s.names⟩ name v = .ok ⟨g', (name, v) :: s.names⟩ ∧
      Reads g ⟨g', (name, v) :: s.names⟩ := by
  have hvalue := value?_of_name? hname
  have hnew : s.names.lookup name = none := by
    rw [Option.eq_none_iff_forall_ne_some]
    intro w hw
    obtain ⟨hlt, hsame⟩ := (h.names name w).mp hw
    obtain rfl := hg.distinct v w name hname hsame
    omega
  have hsize : g'.values.size = s.graph.values.size + 1 := by rw [hvalues, Array.size_push]
  have hlt : v.index < g.values.size := (Array.getElem?_eq_some_iff.mp hvalue).1
  refine ⟨by rw [State.define, hnew]; rfl, ?_, fun w hw => ?_, fun other w => ?_⟩
  · show g'.values.size ≤ _
    omega
  · have hw : w.index < g'.values.size := hw
    rw [value?, hvalues]
    by_cases hlast : w.index = s.graph.values.size
    · have hwv : w = v := congrArg ValueId.mk (hlast.trans hv.symm)
      rw [hwv, hvalue, hv, Array.getElem?_push_size]
    · rw [Array.getElem?_push_lt (by omega), ← h.values w (by omega)]
      exact (Array.getElem?_eq_getElem _).symm
  · show ((name, v) :: s.names).lookup other = some w ↔ w.index < g'.values.size ∧ _
    rw [lookup_cons_eq_ite, hsize]
    split
    · next heq =>
      subst heq
      constructor
      · intro hw
        obtain rfl := Option.some.inj hw
        exact ⟨by omega, hname⟩
      · rintro ⟨-, hw⟩
        rw [hg.distinct v w _ hname hw]
    · next hne =>
      rw [h.names other w]
      constructor
      · rintro ⟨hw, hother⟩
        exact ⟨by omega, hother⟩
      · rintro ⟨hw, hother⟩
        refine ⟨Nat.lt_of_le_of_ne (by omega) fun heq => hne ?_, hother⟩
        have hwv : w = v := congrArg ValueId.mk (heq.trans hv.symm)
        rw [hwv, hname] at hother
        exact (Option.some.inj hother).symm

end Reads

/-- The reader has read some nodes of the graph and all values before them. -/
structure ReadsUpTo (g : Graph) (front : List Node) (s : State) : Prop extends Reads g s where
  name : s.graph.name = g.name
  inputs : s.graph.inputs = g.inputs
  nodes : s.graph.nodes = front
  nextNode : s.graph.nextNode = NodeId.nextAfter 0 front.length
  outputs : s.graph.outputs = []
  count : s.graph.values.size = (definedBy g.inputs front).length

variable {s : State}

/-! ## The header -/

theorem exists_parameters (hg : g.Numbered) (hlegible : g.Legible) {front rest : List ValueId}
    (hinputs : g.inputs = front ++ rest) (h : Reads g s)
    (hcount : s.graph.values.size = front.length) (hread : s.graph.inputs = front) :
    ∃ s' values, (rest.map fun v => (g.binding v).toList).foldlM parameter s = .ok s' ∧
      Reads g s' ∧ values.size = g.inputs.length ∧
      s'.graph = { s.graph with values := values, inputs := g.inputs } := by
  induction rest generalizing s front with
  | nil =>
    rw [List.append_nil] at hinputs
    subst hinputs
    exact ⟨s, s.graph.values, rfl, h, hcount, by rw [← hread]⟩
  | cons v rest ih =>
    have hsplit : definedBy g.inputs g.nodes =
        front ++ v :: (rest ++ g.nodes.flatMap Node.outputs) := by
      rw [definedBy, hinputs, List.append_assoc]
      rfl
    have hindex : v.index = s.graph.values.size := (hg.index_eq hsplit).trans hcount.symm
    obtain ⟨name, hname⟩ := hg.named v (hg.index_lt (hsplit ▸ by simp))
    have hvalue := value?_of_name? hname
    have hvalues : (s.graph.addInput (g.typeOf v) name).1.values =
        s.graph.values.push ⟨g.typeOf v, some name⟩ := rfl
    obtain ⟨hdefine, hnext⟩ := h.define hg hindex hname hvalues
    have hid : (s.graph.addInput (g.typeOf v) name).2 = v := congrArg ValueId.mk hindex.symm
    have hfirst : parameter s (g.binding v).toList =
        .ok ⟨(s.graph.addInput (g.typeOf v) name).1, (name, v) :: s.names⟩ := by
      refine Outcome.bind_eq_ok.mpr ⟨_, binding_binding hname (hlegible.names v name hname),
        Outcome.bind_eq_ok.mpr ⟨_, type_source (hlegible.types v _ hvalue), ?_⟩⟩
      show State.define ⟨(s.graph.addInput (g.typeOf v) name).1, s.names⟩ name
        (s.graph.addInput (g.typeOf v) name).2 = _
      rw [hid]
      exact hdefine
    have hinputs' : g.inputs = (front ++ [v]) ++ rest := by
      rw [hinputs, List.append_assoc]
      rfl
    have hcount' : (s.graph.addInput (g.typeOf v) name).1.values.size = (front ++ [v]).length := by
      rw [hvalues, Array.size_push, hcount, List.length_append, List.length_singleton]
    have hread' : (s.graph.addInput (g.typeOf v) name).1.inputs = front ++ [v] := by
      rw [← hread, ← hid]
      rfl
    obtain ⟨s', values, hfold, hreads, hsize, hgraph⟩ := ih hinputs' hnext hcount' hread'
    refine ⟨s', values, Outcome.foldlM_cons_eq_ok.mpr ⟨_, hfirst, hfold⟩, hreads, hsize, ?_⟩
    rw [hgraph]
    rfl

/-- The line that a graph starts with. -/
def headerChars (g : Graph) : List Char :=
  "graph ".toList ++ g.name.toList ++ '(' :: ((g.bindings g.inputs).toList ++ [')', ':'])

theorem exists_header (hg : g.Numbered) (hlegible : g.Legible) :
    ∃ s, header (headerChars g) = .ok s ∧ ReadsUpTo g [] s := by
  have hempty : Reads g ⟨Graph.empty g.name, []⟩ := by
    refine ⟨Nat.zero_le _, fun v hv => absurd hv (Nat.not_lt_zero _), fun name v => ?_⟩
    constructor
    · intro h
      cases h
    · exact fun h => absurd h.1 (Nat.not_lt_zero _)
  obtain ⟨s, values, hfold, hreads, hsize, hgraph⟩ :=
    exists_parameters hg hlegible (List.nil_append _).symm hempty rfl rfl
  have hinputs : ∀ v ∈ g.inputs, v.index < g.values.size :=
    fun v hv => hg.index_lt (List.mem_append_left _ hv)
  have hnested := nested_bindings hg hlegible hinputs
  have hlist := commaList_bindings hg hlegible hinputs (.inl rfl)
  rw [List.append_nil] at hlist
  have hopening : ∀ c ∈ ' ' :: g.name.toList, (c != '(') = true := by
    simpa using fun c hc => (hlegible.line c hc).1
  have htrim : Text.trim (' ' :: g.name.toList) = g.name.toList := by
    rw [Text.trim_cons_of_blank (by decide), hlegible.tight.trim_eq]
  have hfront : Text.dropFront? "graph".toList (headerChars g) =
      some ((' ' :: g.name.toList) ++ '(' :: ((g.bindings g.inputs).toList ++ [')', ':'])) := by
    rw [Text.dropFront?_eq_some_iff, headerChars]
    rfl
  obtain ⟨hbefore, htail⟩ := Text.span_of_notMem hopening (c := '(') rfl
    ((g.bindings g.inputs).toList ++ [')', ':'])
  have hbracketed := hnested.bracketed_append (by decide) [':']
  have hcolon : (Text.trim [':'] != [':']) = false := by decide
  have hname : (if (String.ofList g.name.toList).isEmpty = true then "graph"
      else String.ofList g.name.toList) = g.name := by
    rw [String.ofList_toList, if_neg]
    exact fun h => hlegible.ne_empty (String.isEmpty_iff.mp h)
  refine ⟨s, ?_, hreads, ?_, ?_, ?_, ?_, ?_, ?_⟩
  · unfold header
    simp only [hfront, hbefore, htail, htrim, hbracketed, List.isEmpty_cons, hcolon, hname, hlist,
      Bool.false_eq_true, if_false]
    exact hfold
  all_goals rw [hgraph]
  · rfl
  · rfl
  · rfl
  · rfl
  · rw [definedBy, List.flatMap_nil, List.append_nil]
    exact hsize

/-! ## Calls -/

/-- The text of an operation. -/
def callChars (g : Graph) (node : Node) : List Char :=
  node.kind.name.toList ++ (attrText node.attrs).toList ++
    '(' :: ((g.labels node.inputs).toList ++ [')'])

theorem toList_attrText {attrs : AttrList} (hne : attrs.entries ≠ []) :
    (attrText attrs).toList =
      '[' :: ([',', ' '].intercalate (attrs.entries.map entryChars) ++ [']']) := by
  rw [attrText, if_neg (by simpa using hne)]
  simp [Function.comp_def, toString]
  rfl

theorem toList_attrText_nil {attrs : AttrList} (h : attrs.entries = []) :
    (attrText attrs).toList = [] := by
  rw [attrText, if_pos (by simpa using h)]
  rfl

/-- What is read from an attribute list. -/
theorem exists_attrs {attrs : AttrList} (h : ∀ e ∈ attrs.entries, LegibleEntry e) :
    ∃ read, (attrs.entries.map entryChars).foldlM attrEntry AttrList.empty = .ok read ∧
      read.entries = attrs.entries.map fun e => (e.1, e.2.reread) := by
  refine exists_foldlM_attrEntry ?_ h
  exact List.pairwise_map.mpr attrs.sorted

theorem commaList_entries {entries : List (String × Attr)} (h : ∀ e ∈ entries, LegibleEntry e) :
    commaList ([',', ' '].intercalate (entries.map entryChars)) = entries.map entryChars := by
  have hitems : ∀ item ∈ entries.map entryChars, Item item := by
    intro item hitem
    obtain ⟨e, he, rfl⟩ := List.mem_map.mp hitem
    exact (token_entry (h e he)).item
  have hcut := commaList_intercalate hitems (.inl rfl)
  rwa [List.append_nil] at hcut

/-- Attributes stand between square brackets. -/
theorem nested_entries {entries : List (String × Attr)} (h : ∀ e ∈ entries, LegibleEntry e) :
    Nested '[' ']' ([',', ' '].intercalate (entries.map entryChars)) := by
  refine .intercalate (.of_notMem (by decide) (by decide)) fun text htext => ?_
  obtain ⟨e, he, rfl⟩ := List.mem_map.mp htext
  exact (token_entry (h e he)).square

/-- The name of the kind ends where a bracket opens. -/
theorem span_callChars (node : Node) :
    (callChars g node).takeWhile (fun c => !(c == '[' || c == '(')) = node.kind.name.toList ∧
      (callChars g node).dropWhile (fun c => !(c == '[' || c == '(')) =
        (attrText node.attrs).toList ++ '(' :: ((g.labels node.inputs).toList ++ [')']) := by
  have hkind : ∀ c ∈ node.kind.name.toList, (!(c == '[' || c == '(')) = true := by
    intro c hc
    have hsquare : c ≠ '[' := fun heq => OpKind.notMem_name (by decide) node.kind (heq ▸ hc)
    have hround : c ≠ '(' := fun heq => OpKind.notMem_name (by decide) node.kind (heq ▸ hc)
    simp [hsquare, hround]
  obtain ⟨c, rest, hrest, hc⟩ : ∃ c rest, (attrText node.attrs).toList ++
      '(' :: ((g.labels node.inputs).toList ++ [')']) = c :: rest ∧
        (!(c == '[' || c == '(')) = false := by
    by_cases hempty : node.attrs.entries = []
    · exact ⟨'(', _, by rw [toList_attrText_nil hempty]; rfl, rfl⟩
    · exact ⟨'[', _, by rw [toList_attrText hempty]; rfl, rfl⟩
  rw [callChars, List.append_assoc, hrest]
  exact Text.span_of_notMem hkind hc rest

/-- An operation is read as it was written, tensors apart. -/
theorem exists_call (hg : g.Numbered) (hlegible : g.Legible) (h : Reads g s) {node : Node}
    (hentries : ∀ e ∈ node.attrs.entries, LegibleEntry e)
    (hinputs : ∀ v ∈ node.inputs, v.index < s.graph.values.size) :
    ∃ read, call s (callChars g node) = .ok ⟨node.kind, read, node.inputs⟩ ∧
      read.entries = node.attrs.entries.map fun e => (e.1, e.2.reread) := by
  obtain ⟨read, hfold, hread⟩ := exists_attrs hentries
  obtain ⟨hbefore, hafter⟩ := span_callChars (g := g) node
  have hvs : ∀ v ∈ node.inputs, v.index < g.values.size :=
    fun v hv => Nat.lt_of_lt_of_le (hinputs v hv) h.size
  have hround := (nested_labels hg hlegible hvs).bracketed_append (by decide) []
  have hoperands := h.mapM_lookup_labels hg hlegible hinputs
  rw [← commaList_labels hg hlegible hvs] at hoperands
  refine ⟨read, ?_, hread⟩
  unfold call
  extract_lets isOpening kindText tail rest
  have htail : tail = (attrText node.attrs).toList ++
      '(' :: ((g.labels node.inputs).toList ++ [')']) := hafter
  have hnonempty : ¬tail.isEmpty = true := by
    rw [htail]
    simp
  have hparse : (OpKind.parse (String.ofList kindText)).mapError SourceFault.unknownKind =
      .ok node.kind := by
    rw [show kindText = _ from hbefore, String.ofList_toList, OpKind.parse_name]
    rfl
  refine Outcome.guard_eq_ok.mpr ⟨hnonempty, Outcome.bind_eq_ok.mpr ⟨_, hparse, ?_⟩⟩
  extract_lets finish
  have hfinish : finish (read, '(' :: ((g.labels node.inputs).toList ++ [')'])) =
      .ok ⟨node.kind, read, node.inputs⟩ := by
    refine Outcome.guard_eq_ok.mpr ⟨by simp, ?_⟩
    simp only [hround]
    exact Outcome.guard_eq_ok.mpr ⟨by decide, Outcome.bind_eq_ok.mpr ⟨_, hoperands, rfl⟩⟩
  by_cases hempty : node.attrs.entries = []
  · have hnone : read = AttrList.empty := AttrList.ext (by rw [hread, hempty]; rfl)
    rw [toList_attrText_nil hempty, List.nil_append] at htail
    rw [htail, if_neg (by simp), ← hnone]
    exact hfinish
  · have hbracketed := (nested_entries hentries).bracketed_append (by decide)
      ('(' :: ((g.labels node.inputs).toList ++ [')']))
    rw [toList_attrText hempty, List.cons_append, List.append_assoc, List.singleton_append] at htail
    rw [htail, if_pos (by simp)]
    simp only [hbracketed, commaList_entries hentries]
    exact Outcome.bind_eq_ok.mpr ⟨_, hfold, hfinish⟩

/-! ## Results -/

/-- A result as its binding is read. -/
def resultOf (g : Graph) (v : ValueId) : String × ValueType := ((g.name? v).getD "", g.typeOf v)

/-- The reader after it has defined a value. -/
def State.after (s : State) (g : Graph) (v : ValueId) : State :=
  ⟨(s.graph.newValue (g.typeOf v) (g.name? v)).1, ((g.name? v).getD "", v) :: s.names⟩

/-- The next value of the graph is defined under its name. -/
theorem Reads.after (h : Reads g s) (hg : g.Numbered) (hv : v.index = s.graph.values.size)
    (hlt : v.index < g.values.size) :
    State.define ⟨(s.graph.newValue (g.typeOf v) (some ((g.name? v).getD ""))).1, s.names⟩
        ((g.name? v).getD "") (s.graph.newValue (g.typeOf v) (some ((g.name? v).getD ""))).2 =
      .ok (s.after g v) ∧ Reads g (s.after g v) := by
  obtain ⟨name, hname⟩ := hg.named v hlt
  have hvalues : (s.graph.newValue (g.typeOf v) (some name)).1.values =
      s.graph.values.push ⟨g.typeOf v, some name⟩ := rfl
  have hid : (s.graph.newValue (g.typeOf v) (some name)).2 = v := congrArg ValueId.mk hv.symm
  rw [State.after, hname, Option.getD_some, hid]
  exact h.define hg hv hname hvalues

/-- Results that are no payloads leave the operation as it is. -/
theorem exists_results (hg : g.Numbered) {front vs back : List ValueId}
    (hsplit : definedBy g.inputs g.nodes = front ++ (vs ++ back)) (h : Reads g s)
    (hcount : s.graph.values.size = front.length) {call : Call}
    (hplain : call.kind = .constant → ∀ v ∈ vs, (g.typeOf v).tensor? = none)
    (outs : List ValueId) :
    ∃ s' values, (vs.map (resultOf g)).foldlM defineResult (s, call, outs) =
        .ok (s', call, outs ++ vs) ∧ Reads g s' ∧
      values.size = (front ++ vs).length ∧ s'.graph = { s.graph with values := values } := by
  induction vs generalizing s front outs with
  | nil => exact ⟨s, s.graph.values, by rw [List.append_nil]; rfl, h, by simpa using hcount, rfl⟩
  | cons v vs ih =>
    have hindex : v.index = s.graph.values.size := (hg.index_eq hsplit).trans hcount.symm
    obtain ⟨hdefine, hnext⟩ := h.after hg hindex (hg.index_lt (hsplit ▸ by simp))
    have hid : (s.graph.newValue (g.typeOf v) (some ((g.name? v).getD ""))).2 = v :=
      congrArg ValueId.mk hindex.symm
    have hfirst : defineResult (s, call, outs) (resultOf g v) =
        .ok (s.after g v, call, outs ++ [v]) := by
      unfold defineResult resultOf
      dsimp only
      split
      · next hkind htype =>
        have hnone := hplain hkind v List.mem_cons_self
        rw [htype] at hnone
        cases hnone
      · refine Outcome.bind_eq_ok.mpr ⟨_, rfl, Outcome.bind_eq_ok.mpr ⟨_, hdefine, ?_⟩⟩
        show pure (s.after g v, call, outs ++ [_]) = Except.ok _
        rw [hid]
        rfl
    have hsplit' : definedBy g.inputs g.nodes = (front ++ [v]) ++ (vs ++ back) := by
      rw [hsplit, List.append_assoc]
      rfl
    have hcount' : (s.after g v).graph.values.size = (front ++ [v]).length := by
      show (s.graph.values.push _).size = _
      rw [Array.size_push, hcount, List.length_append, List.length_singleton]
    have hplain' : call.kind = .constant → ∀ w ∈ vs, (g.typeOf w).tensor? = none :=
      fun hkind w hw => hplain hkind w (List.mem_cons_of_mem _ hw)
    obtain ⟨s', values, hfold, hreads, hsize, hgraph⟩ :=
      ih hsplit' hnext hcount' hplain' (outs ++ [v])
    refine ⟨s', values, ?_, hreads, ?_, ?_⟩
    · rw [List.map_cons]
      refine Outcome.foldlM_cons_eq_ok.mpr ⟨_, hfirst, ?_⟩
      rw [hfold, List.append_assoc]
      rfl
    · rw [hsize, List.append_assoc]
      rfl
    · rw [hgraph]
      rfl

/-- The payload of a tensor constant is read as it was written. -/
theorem constantTensor_reread {t : Tensor} (h : (Attr.tensor t).Legible) :
    constantTensor (.of t.dtype t.dims) (some (Attr.tensor t).reread) = .ok t := by
  obtain ⟨hmade, -⟩ := h
  have hcount : t.doubles.size = elementCount t.dims := (Tensor.ofDoubles_eq_ok.mp hmade).1
  have hextents : (TensorType.of t.dtype t.dims).fixedExtents? = some t.dims :=
    mapM_map_eq_some fun _ _ => rfl
  have hnumbers : ∃ suggested, constantNumbers? (some (Attr.tensor t).reread) =
      some (t.doubles.toList, suggested) ∧ (Attr.tensor t).reread.tensor? = none := by
    rw [Attr.reread]
    by_cases hempty : t.doubles.isEmpty = true
    · rw [if_pos hempty, Array.isEmpty_iff.mp hempty]
      exact ⟨.i64, rfl, rfl⟩
    · rw [if_neg hempty]
      exact ⟨.f32, rfl, rfl⟩
  obtain ⟨suggested, hnumbers, hnone⟩ := hnumbers
  have hlength : ¬elementCount t.dims ≠ t.doubles.toList.length := by
    rw [Array.length_toList, hcount]
    exact not_not_intro rfl
  unfold constantTensor
  simp only [hnumbers, Option.bind_some, hnone, hextents]
  rw [if_neg hlength, Array.toArray_toList]
  exact Outcome.mapError_eq_ok.mpr hmade

theorem get?_eq_some_iff {attrs : AttrList} {name : String} {a : Attr} :
    attrs.get? name = some a ↔ (name, a) ∈ attrs.entries := by
  refine lookup_eq_some_iff_mem (List.pairwise_map.mpr (attrs.sorted.imp fun hlt heq => ?_))
  exact String.lt_irrefl _ (heq ▸ hlt)

/-- A node that holds no tensor is read with its attributes. -/
theorem eq_of_no_payload {attrs read : AttrList}
    (hread : read.entries = attrs.entries.map fun e => (e.1, e.2.reread))
    (hplain : Plain attrs) : read = attrs := by
  refine AttrList.ext (hread.trans ((List.map_congr_left fun e he => ?_).trans (List.map_id _)))
  obtain ⟨name, a⟩ := e
  cases a with
  | tensor t => exact absurd (get?_eq_some_iff.mpr he) (hplain name t)
  | _ => rfl

/-- The payload of a constant is put back among its attributes. -/
theorem insert_payload {attrs read : AttrList} {t : Tensor}
    (hread : read.entries = attrs.entries.map fun e => (e.1, e.2.reread))
    (hvalue : attrs.get? "value" = some (.tensor t))
    (honly : ∀ name t, attrs.get? name = some (.tensor t) → name = "value") :
    read.insert "value" (.tensor t) = attrs := by
  refine AttrList.ext ?_
  show insertEntry _ _ read.entries = _
  rw [hread]
  refine insertEntry_map attrs.sorted (get?_eq_some_iff.mp hvalue) fun e he hne => ?_
  obtain ⟨name, a⟩ := e
  cases a with
  | tensor t => exact absurd (honly name t (get?_eq_some_iff.mpr he)) hne
  | _ => rfl

/-- The result of a tensor constant is defined with the type of the payload. -/
theorem defineResult_payload (hg : g.Numbered) {node : Node}
    (hentries : ∀ e ∈ node.attrs.entries, LegibleEntry e) (hpayloads : Payloads g node)
    (hkind : node.kind = .constant) (hout : node.outputs = [v]) {type : TensorType}
    (htype : g.typeOf v = .tensor type) (h : Reads g s) (hindex : v.index = s.graph.values.size)
    (hlt : v.index < g.values.size) {read : AttrList}
    (hread : read.entries = node.attrs.entries.map fun e => (e.1, e.2.reread)) :
    defineResult (s, ⟨node.kind, read, node.inputs⟩, []) (resultOf g v) =
      .ok (s.after g v, ⟨node.kind, node.attrs, node.inputs⟩, [v]) := by
  obtain ⟨t, hvalue⟩ := hpayloads.constant hkind v hout type htype
  obtain ⟨-, htype'⟩ := hpayloads.tensor hkind v hout _ t hvalue
  have ht := get?_eq_some_iff.mp hvalue
  have hget : read.get? "value" = some (Attr.tensor t).reread := by
    rw [get?_eq_some_iff, hread]
    exact List.mem_map.mpr ⟨_, ht, rfl⟩
  have hinsert := insert_payload hread hvalue fun name t hname =>
    (hpayloads.tensor hkind v hout name t hname).1
  have htensor := constantTensor_reread (hentries _ ht).value
  obtain ⟨hdefine, -⟩ := h.after hg hindex hlt
  have hid : (s.graph.newValue (g.typeOf v) (some ((g.name? v).getD ""))).2 = v :=
    congrArg ValueId.mk hindex.symm
  unfold defineResult resultOf
  rw [hkind, htype']
  dsimp only
  rw [hget, htensor]
  refine Outcome.bind_eq_ok.mpr ⟨t, rfl, Outcome.bind_eq_ok.mpr ⟨_, rfl, ?_⟩⟩
  rw [← htype']
  refine Outcome.bind_eq_ok.mpr ⟨_, hdefine, ?_⟩
  rw [hinsert, hid]
  rfl

/-- The results of a node are defined, and its payload is put back. -/
theorem exists_node (hg : g.Numbered) {node : Node}
    (hentries : ∀ e ∈ node.attrs.entries, LegibleEntry e) (hpayloads : Payloads g node)
    (harity : node.kind = .constant → ∃ v, node.outputs = [v]) {front back : List ValueId}
    (hsplit : definedBy g.inputs g.nodes = front ++ (node.outputs ++ back)) (h : Reads g s)
    (hcount : s.graph.values.size = front.length) {read : AttrList}
    (hread : read.entries = node.attrs.entries.map fun e => (e.1, e.2.reread)) :
    ∃ s' values, (node.outputs.map (resultOf g)).foldlM defineResult
        (s, ⟨node.kind, read, node.inputs⟩, []) =
          .ok (s', ⟨node.kind, node.attrs, node.inputs⟩, node.outputs) ∧ Reads g s' ∧
      values.size = (front ++ node.outputs).length ∧
      s'.graph = { s.graph with values := values } := by
  by_cases hpayload : node.kind = .constant ∧
      ∃ v type, node.outputs = [v] ∧ g.typeOf v = .tensor type
  · obtain ⟨hkind, v, type, hout, htype⟩ := hpayload
    have hsplit' : definedBy g.inputs g.nodes = front ++ v :: back := by rw [hsplit, hout]; rfl
    have hindex : v.index = s.graph.values.size := (hg.index_eq hsplit').trans hcount.symm
    have hlt : v.index < g.values.size := hg.index_lt (hsplit' ▸ by simp)
    have hfirst := defineResult_payload hg hentries hpayloads hkind hout htype h hindex hlt hread
    refine ⟨s.after g v, (s.after g v).graph.values, ?_, (h.after hg hindex hlt).2, ?_, rfl⟩
    · rw [hout]
      exact Outcome.foldlM_cons_eq_ok.mpr ⟨_, hfirst, rfl⟩
    · show (s.graph.values.push _).size = _
      rw [Array.size_push, hcount, hout, List.length_append, List.length_singleton]
  · have hnone : Plain node.attrs := by
      by_cases hkind : node.kind = .constant
      · obtain ⟨v, hout⟩ := harity hkind
        intro name t hget
        exact hpayload ⟨hkind, v, _, hout, (hpayloads.tensor hkind v hout name t hget).2⟩
      · exact hpayloads.plain hkind
    obtain rfl := eq_of_no_payload hread hnone
    have hplain : node.kind = .constant → ∀ v ∈ node.outputs, (g.typeOf v).tensor? = none := by
      intro hkind v hv
      obtain ⟨w, hout⟩ := harity hkind
      obtain rfl : v = w := by simpa [hout] using hv
      cases htype : g.typeOf v with
      | tensor type => exact absurd ⟨hkind, v, type, hout, htype⟩ hpayload
      | _ => rfl
    exact exists_results hg hsplit h hcount hplain []

end Source

end HybridGraph
