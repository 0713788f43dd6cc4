import HybridGraph.Proofs.Graph.Cutting
import HybridGraph.Proofs.Graph.Numerals
import HybridGraph.Proofs.Execute.Attributes
/-!
# Types and attributes, read back

What is written of a type or of an attribute is read back as it was, if numbers lie in the range of
their literals and strings hold no character at which lines are cut (`Attr.Legible`):

    t.Legible → type t.source.toList = .ok t                                          (type_source)
    a.Legible → attr a.text.toList = .ok a.reread                                       (attr_text)

Floats come back by assumption (`Number.ReadsBack`).  A tensor is written as the list of its
elements and read as one (`Attr.reread`).
-/

namespace HybridGraph

namespace Source

variable {cs ds : List Char}

/-! ## Pieces of a line -/

/-- The characters at which lines are cut. -/
def marks : List Char := ['"', '(', ')', '[', ']', ',', '=', '#', ':', '\n']

/-- A text without marks. -/
def Bare (cs : List Char) : Prop := ∀ c ∈ cs, c ∉ marks

namespace Bare

theorem notMem (h : Bare cs) {c : Char} (hc : c ∈ marks) : c ∉ cs := fun hmem => h c hmem hc

theorem of_numerals (h : ∀ c ∈ cs, Text.isNumeral c = true) : Bare cs := by
  have hmarks : ∀ c ∈ marks, Text.isNumeral c = false := by decide
  intro c hc hmark
  have hnone := hmarks c hmark
  rw [h c hc] at hnone
  cases hnone

theorem passes (h : Bare cs) (depth : Nat) : Passes depth cs := by
  have hcutters : ∀ c ∈ cutters, c ∈ marks := by decide
  exact .of_notMem fun c hc hcut => h c hc (hcutters c hcut)

end Bare

theorem notMem_intercalate {sep : List Char} {items : List (List Char)} {c : Char} (hsep : c ∉ sep)
    (h : ∀ item ∈ items, c ∉ item) : c ∉ sep.intercalate items := by
  induction items with
  | nil => exact List.not_mem_nil
  | cons item items ih =>
    obtain ⟨hitem, hitems⟩ := List.forall_mem_cons.mp h
    by_cases hnil : items = []
    · subst hnil
      rwa [List.intercalate_singleton]
    · rw [List.intercalate_cons_of_ne_nil hnil, List.mem_append, List.mem_append]
      exact not_or.mpr ⟨not_or.mpr ⟨hitem, hsep⟩, ih hitems⟩

/-- A piece of a line is neither cut nor taken for the end of a bracket, of a node or of the
line. -/
structure Piece (cs : List Char) : Prop where
  passes : ∀ depth, Passes depth cs
  square : Nested '[' ']' cs
  scope : '#' ∉ cs
  line : '\n' ∉ cs

namespace Piece

theorem of_bare (h : Bare cs) : Piece cs where
  passes := h.passes
  square := .of_notMem (h.notMem (by decide)) (h.notMem (by decide))
  scope := h.notMem (by decide)
  line := h.notMem (by decide)

theorem append (h : Piece cs) (h' : Piece ds) : Piece (cs ++ ds) where
  passes depth := (h.passes depth).append (h'.passes depth)
  square := h.square.append h'.square
  scope := by simp [h.scope, h'.scope]
  line := by simp [h.line, h'.line]

theorem notMem (h : Piece cs) {c : Char} (hc : c ∈ ['#', '\n']) : c ∉ cs := by
  simp only [List.mem_cons, List.not_mem_nil, or_false] at hc
  rcases hc with rfl | rfl
  · exact h.scope
  · exact h.line

theorem notMem_intercalate {items : List (List Char)} (h : ∀ item ∈ items, Piece item) {c : Char}
    (hc : c ∈ ['#', '\n']) : c ∉ [',', ' '].intercalate items := by
  have hsep : ∀ c ∈ ['#', '\n'], c ∉ [',', ' '] := by decide
  exact Source.notMem_intercalate (hsep c hc) fun item hitem => (h item hitem).notMem hc

/-- A list in brackets. -/
theorem list {items : List (List Char)} (h : ∀ item ∈ items, Piece item) :
    Piece ('[' :: [',', ' '].intercalate items ++ [']']) where
  passes _ := (Passes.intercalate fun item hitem => (h item hitem).passes _).square
  square := Nested.wrap (by decide)
    (.intercalate (.of_notMem (by decide) (by decide)) fun item hitem => (h item hitem).square)
  scope := by
    have hinner := notMem_intercalate h (by decide : '#' ∈ ['#', '\n'])
    simp [hinner]
  line := by
    have hinner := notMem_intercalate h (by decide : '\n' ∈ ['#', '\n'])
    simp [hinner]

/-- A list in parentheses. -/
theorem parenthesized {items : List (List Char)} (h : ∀ item ∈ items, Piece item) :
    Piece ('(' :: [',', ' '].intercalate items ++ [')']) where
  passes _ := (Passes.intercalate fun item hitem => (h item hitem).passes _).round
  square := by
    have hinner : Nested '[' ']' ([',', ' '].intercalate items) :=
      .intercalate (.of_notMem (by decide) (by decide)) fun item hitem => (h item hitem).square
    have hopening : Nested '[' ']' ['('] := .of_notMem (by decide) (by decide)
    have hclosing : Nested '[' ']' [')'] := .of_notMem (by decide) (by decide)
    exact (hopening.append hinner).append hclosing
  scope := by
    have hinner := notMem_intercalate h (by decide : '#' ∈ ['#', '\n'])
    simp [hinner]
  line := by
    have hinner := notMem_intercalate h (by decide : '\n' ∈ ['#', '\n'])
    simp [hinner]

end Piece

/-- A piece without blanks around it. -/
structure Token (cs : List Char) : Prop extends Piece cs where
  tight : Text.Tight cs
  ne_nil : cs ≠ []

namespace Token

theorem of_bare (h : Bare cs) (hblank : ∀ c ∈ cs, Text.isBlank c = false) (hne : cs ≠ []) :
    Token cs where
  toPiece := .of_bare h
  tight := .of_forall hblank
  ne_nil := hne

theorem of_numerals (h : ∀ c ∈ cs, Text.isNumeral c = true) (hne : cs ≠ []) : Token cs :=
  .of_bare (.of_numerals h) (fun c hc => Text.isBlank_of_isNumeral (h c hc)) hne

theorem append (h : Token cs) (h' : Token ds) : Token (cs ++ ds) where
  toPiece := h.toPiece.append h'.toPiece
  tight := by
    obtain ⟨c, cs, rfl⟩ := List.exists_cons_of_ne_nil h.ne_nil
    exact h'.tight.around (h.tight.first c rfl) cs h'.ne_nil
  ne_nil := by simp [h.ne_nil]

/-- A list in brackets. -/
theorem list {items : List (List Char)} (h : ∀ item ∈ items, Token item) :
    Token ('[' :: [',', ' '].intercalate items ++ [']']) where
  toPiece := .list fun item hitem => (h item hitem).toPiece
  tight := .around (by decide) _ (.of_forall (by decide)) (by decide)
  ne_nil := List.cons_ne_nil _ _

theorem item (h : Token cs) : Item cs := ⟨h.passes 0, h.tight, h.ne_nil⟩

end Token

end Source

/-! ## Types -/

/-- The extents of a type lie in the range of their literals. -/
def ValueType.Legible : ValueType → Prop
  | .tensor t => ∀ dims, t.shape = some dims → ∀ n, .fixed n ∈ dims → n ≤ Text.maxWord
  | _ => True

/-- The word that a tensor type starts with. -/
def TensorType.word (dtype : Option DType) : String := (dtype.map DType.typeName).getD "Tensor"

namespace Source

theorem source_tensor (dtype : Option DType) (dims : List Dimension) :
    (ValueType.tensor ⟨dtype, some dims⟩).source.toList = (TensorType.word dtype).toList ++
      '(' :: ([',', ' '].intercalate (dims.map fun dim => dim.text.toList) ++ [')']) := by
  simp [ValueType.source, TensorType.word, Function.comp_def]

theorem numerals_toString (n : Nat) : ∀ c ∈ (toString n).toList, Text.isNumeral c = true := by
  rw [Text.toList_toString_nat]
  exact fun c hc => Text.isNumeral_of_isDigit (Text.isDigit_of_mem_toDigits hc)

theorem bare_dimension (dim : Dimension) : Bare dim.text.toList := by
  cases dim with
  | fixed n => exact .of_numerals (numerals_toString n)
  | dynamic =>
    show ∀ c ∈ ['?'], c ∉ marks
    decide

theorem token_dimension (dim : Dimension) : Token dim.text.toList := by
  cases dim with
  | fixed n =>
    refine .of_numerals (numerals_toString n) ?_
    show (toString n).toList ≠ []
    rw [Text.toList_toString_nat]
    exact Nat.toDigits_ne_nil
  | dynamic => exact .of_bare (bare_dimension _) (by decide) (List.cons_ne_nil _ _)

theorem dimensions_intercalate {dims : List Dimension}
    (h : ∀ n, .fixed n ∈ dims → n ≤ Text.maxWord) :
    dimensions ([',', ' '].intercalate (dims.map fun dim => dim.text.toList)) = .ok dims := by
  have hitems : ∀ item ∈ dims.map fun dim => dim.text.toList, Item item := by
    intro item hitem
    obtain ⟨dim, -, rfl⟩ := List.mem_map.mp hitem
    exact (token_dimension dim).item
  have hlist := commaList_intercalate hitems (.inl rfl)
  rw [List.append_nil] at hlist
  rw [dimensions, hlist, Outcome.mapM_eq_ok, List.forall₂_map_left_iff, List.forall₂_same]
  intro dim hdim
  cases dim with
  | fixed n =>
    have htext : (Dimension.fixed n).text = toString n := rfl
    have hword : ∀ c, c.isDigit = false → ((toString n).toList == [c]) = false := by
      intro c hc
      refine beq_false_of_ne fun heq => ?_
      have hdigit : c.isDigit = true := by
        refine Text.isDigit_of_mem_toDigits (n := n) ?_
        rw [← Text.toList_toString_nat, heq]
        exact List.mem_singleton_self c
      rw [hc] at hdigit
      cases hdigit
    rw [htext, hword '?' (by decide), hword '*' (by decide), Text.nat?_toString (h n hdim)]
    rfl
  | dynamic => rfl

theorem exists_word_cons (dtype : Option DType) : ∃ c cs,
    (TensorType.word dtype).toList = c :: cs ∧ Text.isBlank c = false := by
  rcases dtype with _ | _ | _ | _ | _ | _ | _ | _ <;> exact ⟨_, _, rfl, rfl⟩

theorem forall_mem_word (dtype : Option DType) : ∀ c ∈ (TensorType.word dtype).toList,
    c ∉ marks ∧ Text.isBlank c = false := by
  rcases dtype with _ | _ | _ | _ | _ | _ | _ | _ <;> decide

theorem ofTypeName?_word (dtype : DType) :
    TensorType.word (some dtype) ≠ "Tensor" ∧
      DType.ofTypeName? (TensorType.word (some dtype)) = some dtype := by
  cases dtype <;> exact ⟨by decide, rfl⟩

/-- Scalar and list types have no parentheses. -/
theorem plainType?_eq_none {cs : List Char} (hround : '(' ∈ cs) (hlast : cs.getLast? = some ')') :
    plainType? cs = none := by
  have hname : ScalarKind.ofName? (String.ofList cs) = none := by
    rw [ScalarKind.ofName?, List.find?_eq_none]
    intro kind _ heq
    have hchars : kind.name.toList = cs := by
      rw [beq_iff_eq.mp heq, String.toList_ofList]
    rw [← hchars] at hround
    revert hround
    cases kind <;> decide
  have hback : Text.dropBack? ['[', ']'] cs = none := by
    obtain ⟨front, rfl⟩ := List.getLast?_eq_some_iff.mp hlast
    rw [Text.dropBack?, List.reverse_append]
    rfl
  rw [plainType?, hback, hname]
  rfl

/-- A type is read as it was written. -/
theorem type_source {t : ValueType} (h : t.Legible) : type t.source.toList = .ok t := by
  cases t with
  | scalar kind => cases kind <;> rfl
  | list kind => cases kind <;> rfl
  | tensor t =>
    obtain ⟨dtype, _ | dims⟩ := t
    · cases dtype with
      | none => rfl
      | some dtype => cases dtype <;> rfl
    obtain ⟨c, cs, hword, hblank⟩ := exists_word_cons dtype
    have hchars := forall_mem_word dtype
    have htrim : Text.trim (TensorType.word dtype).toList = (TensorType.word dtype).toList :=
      (Text.Tight.of_forall fun c hc => (hchars c hc).2).trim_eq
    have hname : ∀ c ∈ (TensorType.word dtype).toList, (c != '(') = true := by
      intro c hc
      have hne : c ≠ '(' := fun heq => (hchars c hc).1 (heq ▸ by decide)
      simpa using hne
    generalize hinner : [',', ' '].intercalate (dims.map fun dim => dim.text.toList) = inner
    have hdims : dimensions inner = .ok dims := hinner ▸ dimensions_intercalate (h dims rfl)
    have htight : Text.Tight ((TensorType.word dtype).toList ++ '(' :: (inner ++ [')'])) := by
      have hend : Text.Tight [')'] := .of_forall (by decide)
      have haround := hend.around hblank (cs ++ '(' :: inner) (List.cons_ne_nil _ _)
      rw [hword]
      simpa using haround
    obtain ⟨hhead, htail⟩ := Text.span_of_notMem (c := '(') hname rfl (inner ++ [')'])
    have hplain : plainType? ((TensorType.word dtype).toList ++ '(' :: (inner ++ [')'])) = none :=
      plainType?_eq_none (by simp) (by simp [List.getLast?_append, List.getLast?_cons])
    rw [source_tensor, hinner, type, htight.trim_eq]
    simp only [hplain, hhead, htail, htrim, List.isEmpty_cons, String.ofList_toList,
      Text.unwrap?_append, hdims]
    cases dtype with
    | none => rfl
    | some dtype =>
      obtain ⟨hne, hfound⟩ := ofTypeName?_word dtype
      simp [hne, hfound]

/-- The text of a type has balanced parentheses, and an assignment ends before it. -/
structure TypeText (cs : List Char) : Prop extends Token cs where
  round : Nested '(' ')' cs
  assignment : '=' ∉ cs

namespace TypeText

variable {cs ds : List Char}

theorem of_word (h : ∀ c ∈ cs, c ∉ marks ∧ Text.isBlank c = false) (hne : cs ≠ []) :
    TypeText cs where
  toToken := .of_bare (fun c hc => (h c hc).1) (fun c hc => (h c hc).2) hne
  round := .of_notMem (fun hc => (h _ hc).1 (by decide)) fun hc => (h _ hc).1 (by decide)
  assignment := fun hc => (h _ hc).1 (by decide)

theorem append (h : TypeText cs) (h' : TypeText ds) : TypeText (cs ++ ds) where
  toToken := h.toToken.append h'.toToken
  round := h.round.append h'.round
  assignment := by simp [h.assignment, h'.assignment]

end TypeText

/-- The extents of a type in their brackets. -/
theorem typeText_extents (dims : List Dimension) :
    TypeText ('(' :: [',', ' '].intercalate (dims.map fun dim => dim.text.toList) ++ [')']) := by
  have hbare : ∀ item ∈ dims.map fun dim => dim.text.toList, Bare item := by
    intro item hitem
    obtain ⟨dim, -, rfl⟩ := List.mem_map.mp hitem
    exact bare_dimension dim
  have hassignment : '=' ∉ [',', ' '].intercalate (dims.map fun dim => dim.text.toList) :=
    notMem_intercalate (by decide) fun item hitem => (hbare item hitem).notMem (by decide)
  have hround : ∀ item ∈ dims.map fun dim => dim.text.toList, Nested '(' ')' item :=
    fun item hitem => .of_notMem ((hbare item hitem).notMem (by decide))
      ((hbare item hitem).notMem (by decide))
  have hend : Text.Tight [')'] := .of_forall (by decide)
  exact {
    toPiece := .parenthesized fun item hitem => .of_bare (hbare item hitem)
    tight := hend.around (by decide) _ (by decide)
    ne_nil := List.cons_ne_nil _ _
    round := .wrap (by decide) (.intercalate (.of_notMem (by decide) (by decide)) hround)
    assignment := by simp [hassignment] }

theorem typeText_word (dtype : Option DType) : TypeText (TensorType.word dtype).toList := by
  obtain ⟨c, cs, hword, -⟩ := exists_word_cons dtype
  exact .of_word (forall_mem_word dtype) (hword ▸ List.cons_ne_nil c cs)

theorem typeText_source (t : ValueType) : TypeText t.source.toList := by
  have hname : ∀ kind : ScalarKind, TypeText kind.name.toList := by
    intro kind
    cases kind <;> exact .of_word (by decide) (by decide)
  cases t with
  | scalar kind => exact hname kind
  | list kind =>
    have hlist : TypeText ['[', ']'] := {
      toToken := @Token.list [] (by simp)
      round := .of_notMem (by decide) (by decide)
      assignment := by decide }
    have hsource : (ValueType.list kind).source.toList = kind.name.toList ++ ['[', ']'] :=
      String.toList_append
    rw [hsource]
    exact (hname kind).append hlist
  | tensor t =>
    obtain ⟨dtype, _ | dims⟩ := t
    · have hsource : (ValueType.tensor ⟨dtype, none⟩).source = TensorType.word dtype :=
        String.append_empty
      rw [hsource]
      exact typeText_word dtype
    · rw [source_tensor]
      exact (typeText_word dtype).append (typeText_extents dims)

end Source

/-! ## Kinds -/

namespace OpKind

theorem mem_all (kind : OpKind) : kind ∈ all := by
  cases kind <;> decide

theorem ofName?_name : ∀ kind ∈ all, ofName? kind.name = some kind := by
  decide +kernel

/-- Names of kinds are cut nowhere and do not look like the start of a binding. -/
theorem forall_mem_name : ∀ kind ∈ all, ∀ c ∈ kind.name.toList,
    c ∉ ['(', '[', '#', '%', '\n'] ∧ Text.isBlank c = false := by
  decide +kernel

/-- No node line starts like a comment or like the line of the outputs. -/
theorem exists_name_cons (kind : OpKind) :
    ∃ c cs, kind.name.toList = c :: cs ∧ c ∉ ['/', 'r'] := by
  cases kind <;> exact ⟨_, _, rfl, by decide⟩

theorem notMem_name {c : Char} (hc : c ∈ ['(', '[', '#', '%', '\n']) (kind : OpKind) :
    c ∉ kind.name.toList := fun hmem =>
  (forall_mem_name kind (mem_all kind) c hmem).1 hc

/-- A kind is read as it was written. -/
theorem parse_name (kind : OpKind) : parse kind.name = .ok kind := by
  have htight : Text.Tight kind.name.toList :=
    .of_forall fun c hc => (forall_mem_name kind (mem_all kind) c hc).2
  rw [parse, htight.trim_eq, String.ofList_toList, ofName?_name kind (mem_all kind)]

end OpKind

/-! ## Attributes -/

/-- A double is what its literal is read as. -/
def Number.ReadsBack (x : Float) : Prop :=
  Text.float? (FloatLayout.literal.double x).toList = some x

namespace Attr

/-- An attribute that can be read from its text. -/
def Legible : Attr → Prop
  | .int n => Text.minInt ≤ n ∧ n ≤ Text.maxInt
  | .float x => Number.ReadsBack x
  | .str s => ∀ c ∈ s.toList, c ∉ ['"', '[', ']', '#', '\n']
  | .ints ns => ∀ n ∈ ns, Text.minInt ≤ n ∧ n ≤ Text.maxInt
  | .floats xs => xs ≠ [] ∧ ∀ x ∈ xs, Number.ReadsBack x
  | .tensor t => Tensor.ofDoubles t.dtype t.dims t.doubles = .ok t ∧
    ∀ x ∈ t.doubles, Number.ReadsBack x
  | _ => True

/-- What is read from the text of an attribute. -/
def reread : Attr → Attr
  | .tensor t => if t.doubles.isEmpty then .ints [] else .floats t.doubles.toList
  | a => a

end Attr

namespace Source

theorem numerals_toString_int (n : Int) :
    ∀ c ∈ (toString n).toList, Text.isNumeral c = true := by
  rw [Text.toList_toString_int]
  refine List.forall_mem_append.mpr ⟨?_, fun c hc => ?_⟩
  · split <;> decide
  · exact Text.isNumeral_of_isDigit (Text.isDigit_of_mem_toDigits hc)

theorem token_int (n : Int) : Token (toString n).toList := by
  refine .of_numerals (numerals_toString_int n) ?_
  rw [Text.toList_toString_int]
  simp [Nat.toDigits_ne_nil]

theorem token_float (x : Float) :
    Token (Number.FloatLayout.literal.double x).toList := by
  obtain ⟨hnumerals, c, hc, -⟩ := Number.literal_double x
  exact .of_numerals hnumerals (List.ne_nil_of_mem hc)

theorem toList_bracketed {α : Type} (item : α → String) (items : List α) :
    (Text.bracketed item items).toList =
      '[' :: [',', ' '].intercalate (items.map fun a => (item a).toList) ++ [']'] := by
  simp [Text.bracketed, Function.comp_def]

/-- Items in brackets, in order. -/
theorem token_bracketed {α : Type} {item : α → String} {items : List α}
    (h : ∀ a ∈ items, Token (item a).toList) :
    Token (Text.bracketed item items).toList := by
  rw [toList_bracketed]
  refine .list fun text htext => ?_
  obtain ⟨a, ha, rfl⟩ := List.mem_map.mp htext
  exact h a ha

theorem toList_str (s : String) : (Attr.str s).text.toList = '"' :: (s.toList ++ ['"']) := by
  simp [Attr.text, toString]

/-- The text of an attribute stays together. -/
theorem token_text {a : Attr} (h : a.Legible) : Token a.text.toList := by
  cases a with
  | none =>
    show Token ['N', 'o', 'n', 'e']
    exact .of_bare (by unfold Bare; decide) (by decide) (by decide)
  | bool b =>
    cases b with
    | true =>
      show Token ['t', 'r', 'u', 'e']
      exact .of_bare (by unfold Bare; decide) (by decide) (by decide)
    | false =>
      show Token ['f', 'a', 'l', 's', 'e']
      exact .of_bare (by unfold Bare; decide) (by decide) (by decide)
  | dtype t =>
    cases t <;>
      exact .of_bare (by unfold Bare; decide) (by decide) (by decide)
  | int n => exact token_int n
  | float x => exact token_float x
  | ints ns => exact token_bracketed fun n _ => token_int n
  | floats xs => exact token_bracketed fun x _ => token_float x
  | tensor t => exact token_bracketed fun x _ => token_float x
  | str s =>
    have hnone : ∀ c ∈ ['"', '[', ']', '#', '\n'], c ∉ s.toList := fun c hc hmem => h c hmem hc
    have hopening := hnone '[' (by decide)
    have hclosing := hnone ']' (by decide)
    have hscope := hnone '#' (by decide)
    have hline := hnone '\n' (by decide)
    rw [toList_str]
    exact {
      passes := fun _ => .quoted (hnone '"' (by decide))
      square := .of_notMem (by simp [hopening]) (by simp [hclosing])
      scope := by simp [hscope]
      line := by simp [hline]
      tight := .around (by decide) s.toList (.of_forall (by decide)) (by decide)
      ne_nil := List.cons_ne_nil _ _ }

/-- What is no word is a string, a list or a number. -/
theorem attr_of_no_word {cs : List Char} (htight : Text.Tight cs)
    (hword : String.ofList cs ∉ ["None", "true", "false"]) : attr cs =
      match Text.unwrap? '"' '"' cs with
      | some inner => .ok (.str (String.ofList inner))
      | none =>
        match Text.unwrap? '[' ']' cs with
        | some inner => listAttr cs inner
        | none =>
          match Text.int? cs, Text.float? cs, DType.ofText? (String.ofList cs) with
          | some n, _, _ => .ok (.int n)
          | none, some x, _ => .ok (.float x)
          | none, none, some dtype => .ok (.dtype dtype)
          | none, none, none => .error (.badAttribute (String.ofList cs)) := by
  simp only [List.mem_cons, List.not_mem_nil, or_false, not_or] at hword
  obtain ⟨hnone, htrue, hfalse⟩ := hword
  rw [attr, htight.trim_eq]
  simp only [beq_false_of_ne hnone, beq_false_of_ne htrue, beq_false_of_ne hfalse]
  rfl

theorem attr_of_numerals {cs : List Char} (h : ∀ c ∈ cs, Text.isNumeral c = true) : attr cs =
    match Text.int? cs, Text.float? cs, DType.ofText? (String.ofList cs) with
    | some n, _, _ => .ok (.int n)
    | none, some x, _ => .ok (.float x)
    | none, none, some dtype => .ok (.dtype dtype)
    | none, none, none => .error (.badAttribute (String.ofList cs)) := by
  have hhead : ∀ d, Text.isNumeral d = false → ∀ c ∈ cs.head?, c ≠ d := by
    rintro d hd c hc rfl
    rw [h c (List.mem_of_mem_head? hc)] at hd
    cases hd
  have hword : String.ofList cs ∉ ["None", "true", "false"] := by
    simp only [List.mem_cons, List.not_mem_nil, or_false, not_or]
    exact ⟨Text.ne_of_numerals h ⟨'o', by decide⟩, Text.ne_of_numerals h ⟨'t', by decide⟩,
      Text.ne_of_numerals h ⟨'l', by decide⟩⟩
  rw [attr_of_no_word (.of_forall fun c hc => Text.isBlank_of_isNumeral (h c hc)) hword,
    Text.unwrap?_eq_none (hhead '"' (by decide)), Text.unwrap?_eq_none (hhead '[' (by decide))]

/-- A text that starts with a bracket or a quote is no word. -/
theorem notMem_words {c : Char} (cs : List Char)
    (hc : ∀ word ∈ ["None", "true", "false"], word.toList.head? ≠ some c) :
    String.ofList (c :: cs) ∉ ["None", "true", "false"] := by
  intro hmem
  have hhead := hc _ hmem
  rw [String.toList_ofList] at hhead
  exact hhead rfl

theorem attr_of_brackets (inner : List Char) :
    attr ('[' :: (inner ++ [']'])) = listAttr ('[' :: (inner ++ [']'])) inner := by
  have htight : Text.Tight ('[' :: (inner ++ [']'])) :=
    .around (by decide) inner (.of_forall (by decide)) (by decide)
  rw [attr_of_no_word htight (notMem_words _ (by decide)), Text.unwrap?_eq_none (by simp),
    Text.unwrap?_append]

theorem mapM_map_eq_some {α β : Type} {f : α → β} {g : β → Option α} {xs : List α}
    (h : ∀ x ∈ xs, g (f x) = some x) : (xs.map f).mapM g = some xs := by
  induction xs with
  | nil => rfl
  | cons x xs ih =>
    obtain ⟨hx, hxs⟩ := List.forall_mem_cons.mp h
    rw [List.map_cons, List.mapM_cons, hx, ih hxs]
    rfl

/-- Integers in brackets are read as a list of integers. -/
theorem attr_ints {ns : List Int} (h : ∀ n ∈ ns, Text.minInt ≤ n ∧ n ≤ Text.maxInt) :
    attr (Text.bracketed toString ns).toList = .ok (.ints ns) := by
  have hitems : ∀ item ∈ ns.map fun n => (toString n).toList, Item item := by
    intro item hitem
    obtain ⟨n, -, rfl⟩ := List.mem_map.mp hitem
    exact (token_int n).item
  have hlist := commaList_intercalate hitems (.inl rfl)
  rw [List.append_nil] at hlist
  have hread : (ns.map fun n => (toString n).toList).mapM Text.int? = some ns :=
    mapM_map_eq_some fun n hn => Text.int?_toString (h n hn).1 (h n hn).2
  rw [toList_bracketed, List.cons_append, attr_of_brackets, listAttr, hlist, hread]

/-- Floats in brackets are read as a list of floats, where there is one. -/
theorem attr_floats {xs : List Float} (hne : xs ≠ []) (h : ∀ x ∈ xs, Number.ReadsBack x) :
    attr (Attr.floatList xs).toList = .ok (.floats xs) := by
  have hitems : ∀ item ∈ xs.map fun x => (Number.FloatLayout.literal.double x).toList,
      Item item := by
    intro item hitem
    obtain ⟨x, -, rfl⟩ := List.mem_map.mp hitem
    exact (token_float x).item
  have hlist := commaList_intercalate hitems (.inl rfl)
  rw [List.append_nil] at hlist
  have hread : (xs.map fun x => (Number.FloatLayout.literal.double x).toList).mapM Text.float? =
      some xs := mapM_map_eq_some h
  have hints : (xs.map fun x => (Number.FloatLayout.literal.double x).toList).mapM Text.int? =
      none := by
    obtain ⟨x, xs, rfl⟩ := List.exists_cons_of_ne_nil hne
    rw [List.map_cons, List.mapM_cons, Number.int?_literal]
    rfl
  rw [Attr.floatList, toList_bracketed, List.cons_append, attr_of_brackets, listAttr, hlist]
  simp only [hints, hread]

/-- An attribute is read as it was written, a tensor as its elements. -/
theorem attr_text {a : Attr} (h : a.Legible) : attr a.text.toList = .ok a.reread := by
  cases a with
  | none => rfl
  | bool b => cases b <;> rfl
  | dtype t => cases t <;> rfl
  | int n =>
    have htext : (Attr.int n).text = toString n := rfl
    rw [htext, attr_of_numerals (numerals_toString_int n), Text.int?_toString h.1 h.2]
    rfl
  | float x =>
    have htext : (Attr.float x).text = Number.FloatLayout.literal.double x := rfl
    rw [htext, attr_of_numerals (Number.literal_double x).numerals, Number.int?_literal, h]
    rfl
  | str s =>
    have htight : Text.Tight ('"' :: (s.toList ++ ['"'])) :=
      .around (by decide) s.toList (.of_forall (by decide)) (by decide)
    rw [toList_str, attr_of_no_word htight (notMem_words _ (by decide)), Text.unwrap?_append]
    simp only [String.ofList_toList]
    rfl
  | ints ns => exact attr_ints h
  | floats xs => exact attr_floats h.1 h.2
  | tensor t =>
    have htext : (Attr.tensor t).text = Attr.floatList t.doubles.toList := rfl
    rw [htext, Attr.reread]
    split
    · next hempty =>
      rw [Array.isEmpty_iff.mp hempty]
      exact @attr_ints [] (by simp)
    · next hne =>
      refine attr_floats (fun hnil => hne ?_) fun x hx => h.2 x (Array.mem_toList_iff.mp hx)
      rw [Array.isEmpty_iff, ← Array.toList_eq_nil_iff]
      exact hnil

end Source

/-! ## Attribute lists -/

/-- An entry whose name is cut out again and whose value is read back. -/
structure LegibleEntry (e : String × Attr) : Prop where
  bare : Source.Bare e.1.toList
  tight : Text.Tight e.1.toList
  value : e.2.Legible

/-- An entry after all others of a sorted list. -/
theorem insertEntry_of_lt {α : Type} {name : String} {value : α} {entries : List (String × α)}
    (h : ∀ e ∈ entries, e.1 < name) :
    insertEntry name value entries = entries ++ [(name, value)] := by
  induction entries with
  | nil => rfl
  | cons e entries ih =>
    obtain ⟨he, hentries⟩ := List.forall_mem_cons.mp h
    have hlt : ¬name < e.1 := String.lt_asymm he
    have hne : name ≠ e.1 := fun heq => String.lt_irrefl _ (heq ▸ he)
    rw [insertEntry, if_neg hlt, if_neg hne, ih hentries]
    rfl

/-- A value put back in its place. -/
theorem insertEntry_map {α : Type} {name : String} {value : α} {entries : List (String × α)}
    {change : α → α} (hsorted : SortedByName entries) (hmem : (name, value) ∈ entries)
    (hother : ∀ e ∈ entries, e.1 ≠ name → change e.2 = e.2) :
    insertEntry name value (entries.map fun e => (e.1, change e.2)) = entries := by
  induction entries with
  | nil => cases hmem
  | cons e entries ih =>
    obtain ⟨hlt, hsorted⟩ := List.pairwise_cons.mp hsorted
    rw [List.map_cons, insertEntry]
    rcases List.mem_cons.mp hmem with rfl | hmem
    · have hrest : ∀ e ∈ entries, (e.1, change e.2) = e := fun e he =>
        Prod.ext rfl (hother e (List.mem_cons_of_mem _ he) fun heq =>
          String.lt_irrefl _ (heq ▸ hlt e he))
      have hmap : entries.map (fun e => (e.1, change e.2)) = entries :=
        (List.map_congr_left hrest).trans (List.map_id' _)
      rw [if_neg (String.lt_irrefl _), if_pos rfl, hmap]
    · have hname := hlt _ hmem
      have hne : name ≠ e.1 := fun heq => String.lt_irrefl _ (heq ▸ hname)
      rw [if_neg (String.lt_asymm hname), if_neg hne,
        ih hsorted hmem fun e he => hother e (List.mem_cons_of_mem _ he),
        hother e List.mem_cons_self (Ne.symm hne)]

namespace Source

/-- The text of an entry. -/
def entryChars (e : String × Attr) : List Char := e.1.toList ++ '=' :: e.2.text.toList

theorem token_entry {e : String × Attr} (h : LegibleEntry e) : Token (entryChars e) := by
  have htext := token_text h.value
  have hassignment : Piece ['='] := {
    passes := fun _ => .of_notMem (by decide)
    square := .of_notMem (by decide) (by decide)
    scope := by decide
    line := by decide }
  exact {
    toPiece := (Piece.of_bare h.bare).append (hassignment.append htext.toPiece)
    tight := by
      unfold entryChars
      cases hkey : e.1.toList with
      | nil => exact .around (by decide) [] htext.tight htext.ne_nil
      | cons c cs =>
        have hblank : Text.isBlank c = false := h.tight.first c (hkey ▸ rfl)
        have haround := htext.tight.around hblank (cs ++ ['=']) htext.ne_nil
        simpa using haround
    ne_nil := by simp [entryChars] }

theorem attrEntry_entryChars {e : String × Attr} (h : LegibleEntry e) (attrs : AttrList) :
    attrEntry attrs (entryChars e) = .ok (attrs.insert e.1 e.2.reread) := by
  have hsplit := Text.splitFirst_append (h.bare.notMem (by decide : '=' ∈ marks)) e.2.text.toList
  rw [attrEntry, entryChars, hsplit]
  simp only [attr_text h.value, h.tight.trim_eq, String.ofList_toList]
  rfl

/-- The entries of a list are read one after the other. -/
theorem exists_foldlM_attrEntry {entries : List (String × Attr)} {attrs : AttrList}
    (hsorted : ((attrs.entries ++ entries).map Prod.fst).Pairwise (· < ·))
    (h : ∀ e ∈ entries, LegibleEntry e) :
    ∃ attrs', (entries.map entryChars).foldlM attrEntry attrs = .ok attrs' ∧
      attrs'.entries = attrs.entries ++ entries.map fun e => (e.1, e.2.reread) := by
  induction entries generalizing attrs with
  | nil => exact ⟨attrs, rfl, by simp⟩
  | cons e entries ih =>
    obtain ⟨he, hentries⟩ := List.forall_mem_cons.mp h
    have hlast : (attrs.insert e.1 e.2.reread).entries = attrs.entries ++ [(e.1, e.2.reread)] := by
      refine insertEntry_of_lt fun other hother => ?_
      rw [List.map_append] at hsorted
      exact (List.pairwise_append.mp hsorted).2.2 other.1 (List.mem_map_of_mem hother) e.1
        List.mem_cons_self
    have hnext : (((attrs.insert e.1 e.2.reread).entries ++ entries).map Prod.fst).Pairwise
        (· < ·) := by
      rw [hlast]
      simpa using hsorted
    obtain ⟨attrs', hfold, hattrs'⟩ := ih hnext hentries
    refine ⟨attrs', ?_, ?_⟩
    · rw [List.map_cons, List.foldlM_cons, attrEntry_entryChars he]
      exact hfold
    · rw [hattrs', hlast, List.append_assoc]
      rfl

end Source

end HybridGraph
