import HybridGraph.Proofs.Graph.Rereading
/-!
# Graph texts, read back

A graph comes back from its text if it is well-formed, numbered in the order of the text and
legible.  What was read from a text is well-formed and numbered so, and legibility remains: the
reader takes a bracket in a string of an attribute list for a bracket of the text.

    g.verify = .ok () → g.Numbered → (∀ node ∈ g.nodes, Payloads g node) → g.Legible →
      Graph.parse g.text = .ok g                                              (Graph.parse_text)
    Graph.parse text = .ok g → g.Legible → Graph.parse g.text = .ok g
                                                                     (Graph.parse_text_of_parse)
-/

namespace HybridGraph

namespace Source

open HybridGraph.Graph

variable {g : Graph} {s s' : State}

/-! ## Lines of nodes -/

/-- The results of a node, up to its operation. -/
def resultChars (g : Graph) (node : Node) : List Char :=
  if node.outputs.isEmpty then [] else (g.bindings node.outputs).toList ++ [' ', '=', ' ']

/-- The line of a node without its scope. -/
def stmtChars (g : Graph) (node : Node) : List Char := resultChars g node ++ callChars g node

/-- The scope at the end of a line. -/
def scopeChars (node : Node) : List Char :=
  match node.scope with
  | some path => ' ' :: '#' :: ' ' :: path.toList
  | none => []

theorem toList_nodeText (node : Node) : (g.nodeText node).toList =
    ' ' :: ' ' :: (stmtChars g node ++ scopeChars node) ++ ['\n'] := by
  unfold nodeText stmtChars resultChars callChars scopeChars
  cases node.scope <;> cases node.outputs.isEmpty <;> simp [toString]

theorem exists_call_ends (g : Graph) (node : Node) : ∃ c cs, callChars g node = c :: cs ++ [')'] ∧
    Text.isBlank c = false ∧ c ∉ ['%', '/', 'r'] := by
  obtain ⟨c, rest, hname, hother⟩ := node.kind.exists_name_cons
  obtain ⟨hc, hblank⟩ :=
    OpKind.forall_mem_name node.kind (OpKind.mem_all _) c (hname ▸ List.mem_cons_self)
  refine ⟨c, rest ++ (attrText node.attrs).toList ++ '(' :: (g.labels node.inputs).toList, ?_,
    hblank, ?_⟩
  · rw [callChars, hname]
    simp
  · rw [List.mem_cons]
    refine not_or.mpr ⟨fun heq => hc ?_, hother⟩
    rw [heq]
    decide

/-- An operation stays on its line, in front of the scope. -/
theorem notMem_call (hg : g.Numbered) (hlegible : g.Legible) {node : Node}
    (hentries : ∀ e ∈ node.attrs.entries, LegibleEntry e)
    (hinputs : ∀ v ∈ node.inputs, v.index < g.values.size) :
    ∀ c ∈ ['#', '\n'], c ∉ callChars g node := by
  have hlabels := piece_labels hg hlegible hinputs
  have hattrs : ∀ c ∈ ['#', '\n'], c ∉ (attrText node.attrs).toList := by
    intro c hc
    by_cases hempty : node.attrs.entries = []
    · rw [toList_attrText_nil hempty]
      exact List.not_mem_nil
    · rw [toList_attrText hempty]
      refine (Piece.list fun text htext => ?_).notMem hc
      obtain ⟨e, he, rfl⟩ := List.mem_map.mp htext
      exact (token_entry (hentries e he)).toPiece
  have hname : ∀ c ∈ ['#', '\n'], c ∈ ['(', '[', '#', '%', '\n'] := by decide
  intro c hc
  have hoperands := (Piece.parenthesized hlabels).notMem hc
  rw [callChars, toList_labels, List.mem_append, List.mem_append]
  exact not_or.mpr ⟨not_or.mpr ⟨OpKind.notMem_name (hname c hc) _, hattrs c hc⟩, hoperands⟩

theorem notMem_stmt (hg : g.Numbered) (hlegible : g.Legible) {node : Node}
    (hentries : ∀ e ∈ node.attrs.entries, LegibleEntry e)
    (hinputs : ∀ v ∈ node.inputs, v.index < g.values.size)
    (houtputs : ∀ v ∈ node.outputs, v.index < g.values.size) :
    ∀ c ∈ ['#', '\n'], c ∉ stmtChars g node := by
  have hassign : ∀ c ∈ ['#', '\n'], c ∉ [' ', '=', ' '] := by decide
  intro c hc
  rw [stmtChars, resultChars, List.mem_append]
  refine not_or.mpr ⟨?_, notMem_call hg hlegible hentries hinputs c hc⟩
  split
  · exact List.not_mem_nil
  · rw [List.mem_append]
    exact not_or.mpr ⟨notMem_bindings hg hlegible houtputs hc, hassign c hc⟩

theorem exists_bindings_cons (hg : g.Numbered) {vs : List ValueId} (hne : vs ≠ [])
    (hvs : ∀ v ∈ vs, v.index < g.values.size) : ∃ cs, (g.bindings vs).toList = '%' :: cs := by
  obtain ⟨v, vs, rfl⟩ := List.exists_cons_of_ne_nil hne
  obtain ⟨name, hname⟩ := hg.named v (hvs v List.mem_cons_self)
  rw [toList_bindings, List.map_cons, toList_binding, toList_label hname]
  cases vs with
  | nil => exact ⟨_, by rw [List.map_nil, List.intercalate_singleton]; rfl⟩
  | cons w ws => exact ⟨_, by rw [List.map_cons, List.intercalate_cons_cons]; rfl⟩

/-- A line starts with a binding or with a kind, and ends with a parenthesis. -/
theorem exists_stmt_ends (hg : g.Numbered) {node : Node}
    (houtputs : ∀ v ∈ node.outputs, v.index < g.values.size) : ∃ c cs,
      stmtChars g node = c :: cs ++ [')'] ∧ Text.isBlank c = false ∧
        (c = '%' ↔ node.outputs ≠ []) ∧ c ∉ ['/', 'r'] := by
  obtain ⟨c, cs, hcall, hblank, hc⟩ := exists_call_ends g node
  by_cases hempty : node.outputs = []
  · obtain ⟨hne, hother⟩ := not_or.mp (mt List.mem_cons.mpr hc)
    refine ⟨c, cs, ?_, hblank, iff_of_false hne (not_not_intro hempty), hother⟩
    rw [stmtChars, resultChars, if_pos (by simpa using hempty), hcall]
    rfl
  · obtain ⟨rest, hbindings⟩ := exists_bindings_cons hg hempty houtputs
    refine ⟨'%', rest ++ [' ', '=', ' '] ++ c :: cs, ?_, by decide,
      iff_of_true rfl hempty, by decide⟩
    rw [stmtChars, resultChars, if_neg (by simpa using hempty), hcall, hbindings]
    simp

/-- The line of a node without the blanks around it: what follows the operation is the scope. -/
theorem exists_trim_line (hg : g.Numbered) (hlegible : g.Legible) {node : Node}
    (hnode : node ∈ g.nodes) (houtputs : ∀ v ∈ node.outputs, v.index < g.values.size) :
    ∃ after, Text.trim (' ' :: ' ' :: (stmtChars g node ++ scopeChars node)) =
        stmtChars g node ++ after ∧
      (node.scope = none ∧ after = [] ∨ ∃ path rest, node.scope = some path ∧
        after = ' ' :: '#' :: rest ∧ Text.trim rest = path.toList) := by
  obtain ⟨c, cs, hstmt, hblank, -⟩ := exists_stmt_ends hg houtputs
  rw [Text.trim_cons_of_blank (by decide), Text.trim_cons_of_blank (by decide), scopeChars, hstmt]
  cases hscope : node.scope with
  | none =>
    have htight : Text.Tight (c :: cs ++ [')']) := .around hblank cs (.of_forall (by decide))
      (by decide)
    refine ⟨[], ?_, .inl ⟨rfl, rfl⟩⟩
    rw [List.append_nil]
    exact htight.trim_eq
  | some path =>
    obtain ⟨htight, -⟩ := hlegible.scopes node hnode path hscope
    by_cases hempty : path.toList = []
    · have hline : Text.Tight (c :: (cs ++ [')', ' ']) ++ ['#']) :=
        .around hblank _ (.of_forall (by decide)) (by decide)
      refine ⟨[' ', '#'], ?_, .inr ⟨path, [], rfl, rfl, by rw [hempty]; rfl⟩⟩
      have htext : c :: cs ++ [')'] ++ ' ' :: '#' :: ' ' :: path.toList =
          (c :: (cs ++ [')', ' ']) ++ ['#']) ++ [' '] := by
        rw [hempty]
        simp
      rw [htext, Text.trim_concat_of_blank (by decide), hline.trim_eq]
      simp
    · have hline : Text.Tight (c :: (cs ++ [')', ' ', '#', ' ']) ++ path.toList) :=
        .around hblank _ htight hempty
      refine ⟨' ' :: '#' :: ' ' :: path.toList, ?_, .inr ⟨path, ' ' :: path.toList, rfl, rfl, ?_⟩⟩
      · have htext : c :: cs ++ [')'] ++ ' ' :: '#' :: ' ' :: path.toList =
            c :: (cs ++ [')', ' ', '#', ' ']) ++ path.toList := by simp
        rw [htext, hline.trim_eq]
      · rw [Text.trim_cons_of_blank (by decide), htight.trim_eq]

/-! ## Statements -/

/-- Reads a node whose scope has been cut off. -/
def unscoped (s : State) (text : List Char) (scope : Option String) : Read State := do
  let (results, callText) ←
    if text.head? == some '%' then do
      let some (lhs, rhs) := Text.splitFirst '=' text | throw .noAssignment
      pure (← (commaList lhs).mapM resultBinding, Text.trim rhs)
    else pure ([], text)
  let parsed ← call s callText
  let (s, parsed, outputs) ← results.foldlM defineResult (s, parsed, [])
  return { s with graph := (s.graph.pushNode
    ⟨⟨0⟩, parsed.kind, parsed.inputs, outputs, parsed.attrs, scope⟩).1 }

theorem statement_eq_unscoped (s : State) (cs : List Char) : statement s cs =
    match Text.splitFirst '#' cs with
    | some (body, scope) => unscoped s (Text.trim body) (some (String.ofList (Text.trim scope)))
    | none => unscoped s cs none := by
  unfold statement
  cases Text.splitFirst '#' cs <;> rfl

/-- What is cut off a line is the scope of the node. -/
theorem statement_line (hg : g.Numbered) (hlegible : g.Legible) {node : Node}
    (hnode : node ∈ g.nodes) (houtputs : ∀ v ∈ node.outputs, v.index < g.values.size)
    (hscope : '#' ∉ stmtChars g node) :
    statement s (Text.trim (' ' :: ' ' :: (stmtChars g node ++ scopeChars node))) =
      unscoped s (stmtChars g node) node.scope := by
  obtain ⟨c, cs, hstmt, hblank, -⟩ := exists_stmt_ends hg houtputs
  have htight : Text.Tight (stmtChars g node) := by
    rw [hstmt]
    exact .around hblank cs (.of_forall (by decide)) (by decide)
  obtain ⟨after, hline, hafter⟩ := exists_trim_line hg hlegible hnode houtputs
  rw [hline, statement_eq_unscoped]
  rcases hafter with ⟨hnone, rfl⟩ | ⟨path, rest, hsome, rfl, hrest⟩
  · rw [List.append_nil, Text.splitFirst_eq_none hscope, hnone]
  · have htext : stmtChars g node ++ ' ' :: '#' :: rest =
        (stmtChars g node ++ [' ']) ++ '#' :: rest := by simp
    have hbody : Text.trim (stmtChars g node ++ [' ']) = stmtChars g node :=
      (Text.trim_concat_of_blank (by decide)).trans htight.trim_eq
    rw [htext, Text.splitFirst_append (by simp [hscope]), hsome]
    simp only [hbody, hrest, String.ofList_toList]

theorem tight_callChars (g : Graph) (node : Node) : Text.Tight (callChars g node) := by
  obtain ⟨c, cs, hcall, hblank, -⟩ := exists_call_ends g node
  rw [hcall]
  exact .around hblank cs (.of_forall (by decide)) (by decide)

/-- Bindings are read as names and types. -/
theorem mapM_resultBinding_bindings (hg : g.Numbered) (hlegible : g.Legible) {vs : List ValueId}
    (hvs : ∀ v ∈ vs, v.index < g.values.size) :
    (vs.map fun v => (g.binding v).toList).mapM resultBinding = .ok (vs.map (resultOf g)) := by
  rw [Outcome.mapM_eq_ok, List.forall₂_map_left_iff, List.forall₂_map_right_iff, List.forall₂_same]
  intro v hv
  obtain ⟨name, hname⟩ := hg.named v (hvs v hv)
  rw [resultOf, hname]
  exact resultBinding_binding hname (hlegible.names v name hname)
    (hlegible.types v _ (value?_of_name? hname))

/-- The bindings in front of an operation are read, and the operation is what follows them. -/
theorem unscoped_stmt (hg : g.Numbered) (hlegible : g.Legible) {node : Node}
    (houtputs : ∀ v ∈ node.outputs, v.index < g.values.size) (scope : Option String) :
    unscoped s (stmtChars g node) scope =
      call s (callChars g node) >>= fun parsed =>
        (node.outputs.map (resultOf g)).foldlM defineResult (s, parsed, []) >>= fun acc =>
          pure { acc.1 with graph := (acc.1.graph.pushNode
            ⟨⟨0⟩, acc.2.1.kind, acc.2.1.inputs, acc.2.2, acc.2.1.attrs, scope⟩).1 } := by
  obtain ⟨c, cs, hstmt, hblank, hc, -⟩ := exists_stmt_ends hg houtputs
  have hhead : (stmtChars g node).head? = some c := by
    rw [hstmt]
    rfl
  unfold unscoped
  by_cases hempty : node.outputs = []
  · have hne : (some c == some '%') = false :=
      beq_false_of_ne fun heq => hc.mp (Option.some.inj heq) hempty
    have hcall : stmtChars g node = callChars g node := by
      rw [stmtChars, resultChars, if_pos (by simpa using hempty), List.nil_append]
    rw [hhead, hne, hempty, hcall]
    rfl
  · obtain rfl := hc.mpr hempty
    have hassignment : '=' ∉ (g.bindings node.outputs).toList ++ [' '] := by
      simp [assignment_bindings hg hlegible houtputs]
    have hsplit : Text.splitFirst '=' (stmtChars g node) =
        some ((g.bindings node.outputs).toList ++ [' '], ' ' :: callChars g node) := by
      rw [← Text.splitFirst_append hassignment, stmtChars, resultChars,
        if_neg (by simpa using hempty)]
      simp
    have hlist := commaList_bindings hg hlegible houtputs (.inr rfl)
    have hread := mapM_resultBinding_bindings hg hlegible houtputs
    have htrim : Text.trim (' ' :: callChars g node) = callChars g node := by
      rw [Text.trim_cons_of_blank (by decide), (tight_callChars g node).trim_eq]
    rw [hhead, beq_self_eq_true, if_pos rfl]
    simp only [hsplit, hlist, hread, htrim]
    rfl

/-- A node is read as it was written. -/
theorem exists_statement (hg : g.Numbered) (hlegible : g.Legible) {front back : List Node}
    {node : Node} (hsplit : g.nodes = front ++ node :: back)
    (hmay : node.MayFollow g.values.size g.inputs front) (hpayloads : Payloads g node)
    (harity : node.kind = .constant → ∃ v, node.outputs = [v]) (h : ReadsUpTo g front s) :
    ∃ s', statement s (Text.trim (' ' :: ' ' :: (stmtChars g node ++ scopeChars node))) = .ok s' ∧
      ReadsUpTo g (front ++ [node]) s' := by
  have hnode : node ∈ g.nodes := hsplit ▸ List.mem_append_cons_self
  have hentries := hlegible.attrs node hnode
  have hinputs : ∀ v ∈ node.inputs, v.index < s.graph.values.size := by
    intro v hv
    obtain ⟨before, rest, hbefore⟩ := List.append_of_mem (hmay.reads v hv)
    have hfront : definedBy g.inputs g.nodes =
        before ++ v :: (rest ++ (node :: back).flatMap Node.outputs) := by
      rw [hsplit, definedBy_append, hbefore, List.append_assoc]
      rfl
    rw [hg.index_eq hfront, h.count, hbefore]
    simp
  have hinputs' : ∀ v ∈ node.inputs, v.index < g.values.size :=
    fun v hv => Nat.lt_of_lt_of_le (hinputs v hv) h.size
  have hdefined : definedBy g.inputs g.nodes =
      definedBy g.inputs front ++ (node.outputs ++ back.flatMap Node.outputs) := by
    rw [hsplit, definedBy_append, List.flatMap_cons]
  have hscope := notMem_stmt hg hlegible hentries hinputs' hmay.known '#' (by decide)
  obtain ⟨read, hcall, hread⟩ := exists_call hg hlegible h.toReads hentries hinputs
  obtain ⟨s', values, hresults, hreads, hsize, hgraph⟩ := exists_node hg hentries hpayloads harity
    hdefined h.toReads h.count hread
  refine ⟨{ s' with graph := (s'.graph.pushNode
    ⟨⟨0⟩, node.kind, node.inputs, node.outputs, node.attrs, node.scope⟩).1 }, ?_, ?_⟩
  · rw [statement_line hg hlegible hnode hmay.known hscope, unscoped_stmt hg hlegible hmay.known]
    exact Outcome.bind_eq_ok.mpr ⟨_, hcall, Outcome.bind_eq_ok.mpr ⟨_, hresults, rfl⟩⟩
  · have hid := hg.id_eq hsplit
    refine ⟨⟨hreads.size, hreads.values, hreads.names⟩, ?_, ?_, ?_, ?_, ?_, ?_⟩
    all_goals dsimp only [Graph.pushNode, Graph.freshNode]; rw [hgraph]; dsimp only
    · exact h.name
    · exact h.inputs
    · rw [h.nodes, h.nextNode, ← nthId, ← hid]
    · rw [h.nextNode, List.length_append, List.length_singleton]
      rfl
    · exact h.outputs
    · rw [hsize, definedBy_append, List.flatMap_singleton]

/-! ## Whole texts -/

/-- Lines that are neither empty nor comments are kept, in order. -/
theorem snd_numberedLines {texts : List (List Char)} (hline : ∀ text ∈ texts, '\n' ∉ text)
    (hkept : ∀ text ∈ texts, ∃ c cs, Text.trim text = c :: cs ∧ c ≠ '/') :
    (numberedLines (texts.flatMap (· ++ ['\n']))).map Prod.snd = texts.map Text.trim := by
  have htrimmed : (texts.map Text.dropCarriageReturn).map Text.trim = texts.map Text.trim := by
    rw [List.map_map]
    exact List.map_congr_left fun text _ => Text.trim_dropCarriageReturn text
  have hlines : numberedLines (texts.flatMap (· ++ ['\n'])) =
      (((texts.map Text.dropCarriageReturn).zipIdx 1).map fun line =>
        (line.2, Text.trim line.1)).filter fun line =>
          !line.2.isEmpty && line.2.take 2 != ['/', '/'] := by
    rw [← Text.lines_flatMap hline]
    rfl
  have hall : ∀ line ∈ ((texts.map Text.dropCarriageReturn).zipIdx 1).map fun line =>
      (line.2, Text.trim line.1), (!line.2.isEmpty && line.2.take 2 != ['/', '/']) = true := by
    intro numbered hmem
    obtain ⟨⟨line, n⟩, hline, rfl⟩ := List.mem_map.mp hmem
    obtain ⟨text, htext, rfl⟩ := List.mem_map.mp (List.fst_mem_of_mem_zipIdx hline)
    obtain ⟨c, cs, htrim, hc⟩ := hkept text htext
    dsimp only
    rw [Text.trim_dropCarriageReturn, htrim]
    simp [hc]
  rw [hlines, List.filter_eq_self.mpr hall, List.map_map, ← htrimmed,
    ← List.zipIdx_map_fst 1 (texts.map Text.dropCarriageReturn), List.map_map, List.zipIdx_map_fst]
  rfl

/-- The line of a node with the blanks in front of it. -/
def lineChars (g : Graph) (node : Node) : List Char :=
  ' ' :: ' ' :: (stmtChars g node ++ scopeChars node)

/-- The line of the outputs without the blanks in front of it. -/
def returnChars (g : Graph) : List Char :=
  "return ".toList ++ '(' :: ((g.labels g.outputs).toList ++ [')'])

theorem toList_text (g : Graph) : g.text.toList =
    (headerChars g :: (g.nodes.map (lineChars g) ++ [' ' :: ' ' :: returnChars g])).flatMap
      (· ++ ['\n']) := by
  have hnodes : (g.nodes.map g.nodeText).flatMap String.toList =
      (g.nodes.map (lineChars g)).flatMap (· ++ ['\n']) := by
    rw [List.flatMap_map, List.flatMap_map]
    exact congrArg (List.flatMap · g.nodes) (funext toList_nodeText)
  unfold Graph.text headerChars returnChars
  simp only [String.toList_append, String.toList_join, hnodes, List.flatMap_cons,
    List.flatMap_append, List.flatMap_nil, toString]
  simp

/-- The values that a graph returns are read. -/
theorem returned_labels (hg : g.Numbered) (hlegible : g.Legible) (h : Reads g s) {vs : List ValueId}
    (hvs : ∀ v ∈ vs, v.index < s.graph.values.size) :
    returned s (' ' :: '(' :: ((g.labels vs).toList ++ [')'])) = .ok vs := by
  have htight : Text.Tight ('(' :: ((g.labels vs).toList ++ [')'])) :=
    .around (by decide) _ (.of_forall (by decide)) (by decide)
  have hlist := commaList_labels hg hlegible fun v hv => Nat.lt_of_lt_of_le (hvs v hv) h.size
  rw [returned, Text.trim_cons_of_blank (by decide), htight.trim_eq]
  simp only [Text.unwrap?_append, Option.getD_some, hlist]
  exact h.mapM_lookup_labels hg hlegible hvs

/-- The line of a graph's outputs, without the blanks in front of it. -/
theorem tight_returnChars (g : Graph) : Text.Tight (returnChars g) := by
  have htight : Text.Tight ('r' :: ("eturn (".toList ++ (g.labels g.outputs).toList) ++ [')']) :=
    .around (by decide) _ (.of_forall (by decide)) (by decide)
  unfold returnChars
  simpa using htight

theorem dropFront?_returnChars (g : Graph) : Text.dropFront? "return".toList (returnChars g) =
    some (' ' :: '(' :: ((g.labels g.outputs).toList ++ [')'])) := by
  have hword : "return ".toList = "return".toList ++ [' '] := by decide
  unfold returnChars
  rw [Text.dropFront?_eq_some_iff, hword, List.append_assoc, List.singleton_append]

theorem tight_headerChars (g : Graph) : Text.Tight (headerChars g) := by
  have htight : Text.Tight ('g' :: ("raph ".toList ++ g.name.toList ++
      '(' :: (g.bindings g.inputs).toList) ++ [')', ':']) :=
    .around (by decide) _ (.of_forall (by decide)) (by decide)
  unfold headerChars
  simpa using htight

/-- The lines after the header are read as the nodes and the outputs of the graph. -/
theorem exists_body (hg : g.Numbered) (hlegible : g.Legible) (hverify : g.verify = .ok ())
    (hpayloads : ∀ node ∈ g.nodes, Payloads g node) {front rest : List Node}
    (hsplit : g.nodes = front ++ rest) (h : ReadsUpTo g front s) {lines : List (Nat × List Char)}
    (hlines : lines.map Prod.snd = rest.map (fun node => Text.trim (lineChars g node)) ++
      [returnChars g]) :
    ∃ s', body s none lines = .ok (s', some g.outputs) ∧ ReadsUpTo g g.nodes s' := by
  obtain ⟨hform, hchecks⟩ := verify_eq_ok.mp hverify
  induction rest generalizing s front lines with
  | nil =>
    rw [List.append_nil] at hsplit
    subst hsplit
    obtain ⟨⟨n, line⟩, rfl, hline⟩ := List.map_eq_singleton_iff.mp hlines
    obtain rfl : line = returnChars g := hline
    have houtputs : ∀ v ∈ g.outputs, v.index < s.graph.values.size := by
      intro v hv
      obtain ⟨before, rest, hbefore⟩ := List.append_of_mem (hform.outputs v hv)
      rw [hg.index_eq hbefore, h.count, hbefore]
      simp
    have hreturned := returned_labels hg hlegible h.toReads houtputs
    have hfront := dropFront?_returnChars g
    refine ⟨s, ?_, h⟩
    rw [body, hfront]
    refine Outcome.bind_eq_ok.mpr ⟨_, Outcome.mapError_eq_ok.mpr hreturned, ?_⟩
    rw [body]
  | cons node rest ih =>
    obtain ⟨⟨n, line⟩, lines, rfl, hline, hrest⟩ := List.map_eq_cons_iff.mp hlines
    obtain rfl : line = Text.trim (lineChars g node) := hline
    have hmay := hform.nodes front node rest hsplit
    have hnode : node ∈ g.nodes := hsplit ▸ List.mem_append_cons_self
    have harity : node.kind = .constant → ∃ v, node.outputs = [v] :=
      fun hkind => exists_output_of_checkNode (hchecks node hnode) (by rw [hkind]; rfl)
    obtain ⟨next, hnext, hreads⟩ :=
      exists_statement hg hlegible hsplit hmay (hpayloads node hnode) harity h
    obtain ⟨after, htrim, -⟩ := exists_trim_line hg hlegible hnode hmay.known
    obtain ⟨c, cs, hstmt, -, -, hc⟩ := exists_stmt_ends hg hmay.known
    have hfront : Text.dropFront? "return".toList (Text.trim (lineChars g node)) = none := by
      have hne : 'r' ≠ c := fun heq => hc (heq ▸ by decide)
      rw [lineChars, htrim, hstmt]
      simp [Text.dropFront?, hne]
    obtain ⟨s', hbody, hs'⟩ := ih (by rw [hsplit]; simp) hreads hrest
    refine ⟨s', ?_, hs'⟩
    rw [body, hfront]
    exact Outcome.bind_eq_ok.mpr ⟨next, Outcome.mapError_eq_ok.mpr hnext, hbody⟩

/-- A reader that has read all nodes has the graph, the outputs apart. -/
theorem ReadsUpTo.graph_eq (h : ReadsUpTo g g.nodes s) (hg : g.Numbered) :
    { s.graph with outputs := g.outputs } = g := by
  have hsize : s.graph.values.size = g.values.size := by
    rw [h.count, hg.values, List.length_map, List.length_range]
  have hvalues : s.graph.values = g.values := by
    refine Array.ext_getElem? fun i => ?_
    rcases Nat.lt_or_ge i s.graph.values.size with hi | hi
    · exact h.values ⟨i⟩ hi
    · rw [Array.getElem?_eq_none hi, Array.getElem?_eq_none (hsize ▸ hi)]
  have hnext : s.graph.nextNode = g.nextNode := h.nextNode.trans hg.nextNode.symm
  show (⟨s.graph.name, s.graph.values, s.graph.nodes, s.graph.inputs, g.outputs,
    s.graph.nextNode⟩ : Graph) = g
  rw [h.name, h.inputs, h.nodes, hvalues, hnext]

/-- The line of a node ends with it, and what it starts with is no comment. -/
theorem line_node (hg : g.Numbered) (hlegible : g.Legible) {node : Node} (hnode : node ∈ g.nodes)
    (hinputs : ∀ v ∈ node.inputs, v.index < g.values.size)
    (houtputs : ∀ v ∈ node.outputs, v.index < g.values.size) :
    '\n' ∉ lineChars g node ∧ ∃ c cs, Text.trim (lineChars g node) = c :: cs ∧ c ≠ '/' := by
  obtain ⟨after, htrim, -⟩ := exists_trim_line hg hlegible hnode houtputs
  obtain ⟨c, cs, hends, -, -, hc⟩ := exists_stmt_ends hg houtputs
  refine ⟨?_, c, cs ++ [')'] ++ after, ?_, fun heq => hc (heq ▸ List.mem_cons_self)⟩
  · have hstmt := notMem_stmt hg hlegible (hlegible.attrs node hnode) hinputs houtputs '\n'
      (by decide)
    have hscope : '\n' ∉ scopeChars node := by
      rw [scopeChars]
      cases hscope : node.scope with
      | none => exact List.not_mem_nil
      | some path => simp [(hlegible.scopes node hnode path hscope).2]
    simp [lineChars, hstmt, hscope]
  · rw [lineChars, htrim, hends]
    rfl

theorem line_headerChars (hg : g.Numbered) (hlegible : g.Legible)
    (hinputs : ∀ v ∈ g.inputs, v.index < g.values.size) :
    '\n' ∉ headerChars g ∧ ∃ c cs, Text.trim (headerChars g) = c :: cs ∧ c ≠ '/' := by
  have hbindings := notMem_bindings hg hlegible hinputs (by decide : '\n' ∈ ['#', '\n'])
  have hname : '\n' ∉ g.name.toList := fun hmem => (hlegible.line _ hmem).2 rfl
  obtain ⟨cs, hcs⟩ : ∃ cs, headerChars g = 'g' :: cs := by simp [headerChars]
  refine ⟨?_, 'g', cs, (tight_headerChars g).trim_eq.trans hcs, by decide⟩
  simp [headerChars, hbindings, hname]

theorem trim_returnChars (g : Graph) : Text.trim (' ' :: ' ' :: returnChars g) = returnChars g := by
  rw [Text.trim_cons_of_blank (by decide), Text.trim_cons_of_blank (by decide),
    (tight_returnChars g).trim_eq]

theorem line_returnChars (hg : g.Numbered) (hlegible : g.Legible)
    (houtputs : ∀ v ∈ g.outputs, v.index < g.values.size) :
    '\n' ∉ ' ' :: ' ' :: returnChars g ∧
      ∃ c cs, Text.trim (' ' :: ' ' :: returnChars g) = c :: cs ∧ c ≠ '/' := by
  have hlabels : '\n' ∉ (g.labels g.outputs).toList := by
    rw [toList_labels]
    exact Piece.notMem_intercalate (piece_labels hg hlegible houtputs) (by decide)
  obtain ⟨cs, hcs⟩ : ∃ cs, returnChars g = 'r' :: cs := by
    unfold returnChars
    simp
  refine ⟨?_, 'r', cs, (trim_returnChars g).trans hcs, by decide⟩
  unfold returnChars
  simp [hlabels]

/-- The lines of a graph's text. -/
theorem snd_numberedLines_text (hg : g.Numbered) (hlegible : g.Legible)
    (hform : g.SingleAssignment) :
    (numberedLines g.text.toList).map Prod.snd =
      headerChars g :: (g.nodes.map (fun node => Text.trim (lineChars g node)) ++
        [returnChars g]) := by
  have hheader := line_headerChars hg hlegible hform.known
  have hreturn := line_returnChars hg hlegible fun v hv => hform.index_lt (hform.outputs v hv)
  have hnodes : ∀ text ∈ g.nodes.map (lineChars g), '\n' ∉ text ∧
      ∃ c cs, Text.trim text = c :: cs ∧ c ≠ '/' := by
    intro text htext
    obtain ⟨node, hn, rfl⟩ := List.mem_map.mp htext
    obtain ⟨before, after, hsplit⟩ := List.append_of_mem hn
    have hmay := hform.nodes before node after hsplit
    refine line_node hg hlegible hn (fun v hv => ?_) hmay.known
    exact hform.index_lt (hsplit ▸ definedBy_subset_append _ _ _ (hmay.reads v hv))
  have hlines : ∀ text ∈ headerChars g ::
      (g.nodes.map (lineChars g) ++ [' ' :: ' ' :: returnChars g]),
        '\n' ∉ text ∧ ∃ c cs, Text.trim text = c :: cs ∧ c ≠ '/' :=
    List.forall_mem_cons.mpr ⟨hheader,
      List.forall_mem_append.mpr ⟨hnodes, List.forall_mem_singleton.mpr hreturn⟩⟩
  rw [toList_text, snd_numberedLines (fun text htext => (hlines text htext).1)
    fun text htext => (hlines text htext).2]
  rw [List.map_cons, List.map_append, List.map_singleton, List.map_map,
    (tight_headerChars g).trim_eq, trim_returnChars]
  rfl

end Source

/-! ## Top theorems -/

/-- A graph whose values, names and texts can be told apart is read back from its text. -/
theorem Graph.parse_text {g : Graph} (hverify : g.verify = .ok ()) (hg : g.Numbered)
    (hpayloads : ∀ node ∈ g.nodes, Source.Payloads g node) (hlegible : g.Legible) :
    Graph.parse g.text = .ok g := by
  have hlines := Source.snd_numberedLines_text hg hlegible (verify_eq_ok.mp hverify).1
  obtain ⟨⟨n, line⟩, lines, hnumbered, hline, hrest⟩ := List.map_eq_cons_iff.mp hlines
  obtain rfl : line = Source.headerChars g := hline
  obtain ⟨start, hstart, hreads⟩ := Source.exists_header hg hlegible
  obtain ⟨s, hbody, hs⟩ :=
    Source.exists_body hg hlegible hverify hpayloads (List.nil_append _).symm hreads hrest
  have hgraph := hs.graph_eq hg
  have hparsed : ParsedGraph.parse g.text = .ok ⟨g, s.names⟩ := by
    unfold ParsedGraph.parse
    rw [hnumbered]
    refine Outcome.bind_eq_ok.mpr ⟨start, Outcome.mapError_eq_ok.mpr hstart,
      Outcome.bind_eq_ok.mpr ⟨_, hbody, ?_⟩⟩
    dsimp only
    rw [hgraph]
    exact Outcome.bind_eq_ok.mpr ⟨(), Outcome.mapError_eq_ok.mpr hverify, rfl⟩
  exact Outcome.bind_eq_ok.mpr ⟨_, hparsed, rfl⟩

/-- The text of a graph that was read is read as the same graph, if it is legible. -/
theorem Graph.parse_text_of_parse {text : String} {g : Graph} (h : Graph.parse text = .ok g)
    (hlegible : g.Legible) : Graph.parse g.text = .ok g :=
  parse_text (of_parse h).1 (numbered_of_parse h) (fun _ hn => payloads_of_parse h hn)
    hlegible

end HybridGraph
