import HybridGraph.Graph.Parser
/-!
# Cutting lines

The reader of graph texts cuts a line at brackets, marks and commas.  The contents of a bracket come
back if the brackets inside are balanced (`Nested`), and the items of a comma list come back if
their own commas stand inside brackets or quotes (`Passes`):

    Nested opening closing cs →
      bracketed opening closing (opening :: cs ++ closing :: rest) = some (cs, rest)
    (∀ item ∈ items, Item item) → commaList ([',', ' '].intercalate items) = items

Both properties hold of texts without such characters and are kept by putting texts side by side and
into brackets.
-/

namespace HybridGraph

/-! ## Blanks -/

namespace Text

variable {c : Char} {cs : List Char}

theorem trim_cons_of_blank (h : isBlank c = true) : trim (c :: cs) = trim cs := by
  rw [trim, trimLeft, List.dropWhile_cons_of_pos h]
  rfl

theorem trim_concat_of_blank (h : isBlank c = true) : trim (cs ++ [c]) = trim cs := by
  unfold trim trimLeft trimRight
  rw [List.dropWhile_append]
  split
  · next hall =>
    rw [List.isEmpty_iff.mp hall, List.dropWhile_cons_of_pos h]
    rfl
  · rw [List.reverse_append, List.reverse_singleton, List.singleton_append,
      List.dropWhile_cons_of_pos h]

/-- No blank at the ends. -/
structure Tight (cs : List Char) : Prop where
  first : ∀ c ∈ cs.head?, isBlank c = false
  last : ∀ c ∈ cs.getLast?, isBlank c = false

namespace Tight

variable {ds : List Char}

theorem trim_eq (h : Tight cs) : trim cs = cs := by
  have hleft : cs.dropWhile isBlank = cs := by
    cases cs with
    | nil => rfl
    | cons c cs => exact List.dropWhile_cons_of_neg (by simpa using h.first c rfl)
  have hright : cs.reverse.dropWhile isBlank = cs.reverse := by
    have hlast := h.last
    rw [← List.head?_reverse] at hlast
    cases hreverse : cs.reverse with
    | nil => rfl
    | cons c rest =>
      rw [hreverse] at hlast
      exact List.dropWhile_cons_of_neg (by simpa using hlast c rfl)
  rw [trim, trimLeft, hleft, trimRight, hright, List.reverse_reverse]

theorem of_forall (h : ∀ c ∈ cs, isBlank c = false) : Tight cs :=
  ⟨fun _ hc => h _ (List.mem_of_mem_head? hc), fun _ hc => h _ (List.mem_of_mem_getLast? hc)⟩

/-- Only the first character and the end of a text matter. -/
theorem around (hc : isBlank c = false) (cs : List Char) (h : Tight ds) (hne : ds ≠ []) :
    Tight (c :: cs ++ ds) := by
  refine ⟨fun x hx => ?_, fun x hx => h.last x ?_⟩
  · obtain rfl := Option.some.inj hx
    exact hc
  · have hlast : ds.getLast?.isSome = true := List.getLast?_isSome.mpr hne
    rwa [List.getLast?_append, Option.or_of_isSome hlast] at hx

end Tight

/-- A carriage return is a blank. -/
theorem trim_dropCarriageReturn (cs : List Char) : trim (dropCarriageReturn cs) = trim cs := by
  unfold dropCarriageReturn
  split
  · next hlast =>
    obtain ⟨front, rfl⟩ := List.getLast?_eq_some_iff.mp (beq_iff_eq.mp hlast)
    rw [List.dropLast_concat, trim_concat_of_blank (by decide)]
  · rfl

/-! ## Marks -/

theorem splitFirst_append (h : c ∉ cs) (rest : List Char) :
    splitFirst c (cs ++ c :: rest) = some (cs, rest) := by
  induction cs with
  | nil => simp [splitFirst]
  | cons x cs ih =>
    obtain ⟨hne, hrest⟩ := not_or.mp (mt List.mem_cons.mpr h)
    have hx : (x == c) = false := by simpa using Ne.symm hne
    rw [List.cons_append, splitFirst, hx, ih hrest]
    rfl

theorem splitFirst_eq_none (h : c ∉ cs) : splitFirst c cs = none := by
  induction cs with
  | nil => rfl
  | cons x cs ih =>
    obtain ⟨hne, hrest⟩ := not_or.mp (mt List.mem_cons.mpr h)
    have hx : (x == c) = false := by simpa using Ne.symm hne
    rw [splitFirst, hx, ih hrest]
    rfl

theorem splitAll_ne_nil (c : Char) (cs : List Char) : splitAll c cs ≠ [] := by
  cases cs with
  | nil => simp [splitAll]
  | cons x cs =>
    rw [splitAll]
    split
    · simp
    · split <;> simp

theorem splitAll_append (h : c ∉ cs) (rest : List Char) :
    splitAll c (cs ++ c :: rest) = cs :: splitAll c rest := by
  induction cs with
  | nil =>
    obtain ⟨piece, pieces, hpieces⟩ := List.exists_cons_of_ne_nil (splitAll_ne_nil c rest)
    simp [splitAll, hpieces]
  | cons x cs ih =>
    obtain ⟨hne, hrest⟩ := not_or.mp (mt List.mem_cons.mpr h)
    have hx : (x == c) = false := by simpa using Ne.symm hne
    rw [List.cons_append, splitAll, ih hrest]
    simp [hx]

/-- Lines that are closed by a line break are read one by one. -/
theorem lines_flatMap {texts : List (List Char)} (h : ∀ text ∈ texts, '\n' ∉ text) :
    lines (texts.flatMap (· ++ ['\n'])) = texts.map dropCarriageReturn := by
  have hall : splitAll '\n' (texts.flatMap (· ++ ['\n'])) = texts ++ [[]] := by
    induction texts with
    | nil => rfl
    | cons text texts ih =>
      obtain ⟨htext, htexts⟩ := List.forall_mem_cons.mp h
      rw [List.flatMap_cons, List.append_assoc, List.singleton_append, splitAll_append htext,
        ih htexts]
      rfl
  unfold lines
  simp only [hall, List.dropLast_concat, List.getLast?_concat]

/-- What stands before the first of some characters, and from it on. -/
theorem span_of_notMem {p : Char → Bool} (hcs : ∀ x ∈ cs, p x = true) (hc : p c = false)
    (rest : List Char) :
    (cs ++ c :: rest).takeWhile p = cs ∧ (cs ++ c :: rest).dropWhile p = c :: rest := by
  have hneg : ¬p c = true := by simp [hc]
  rw [List.takeWhile_append_of_pos hcs, List.dropWhile_append_of_pos hcs,
    List.takeWhile_cons_of_neg hneg, List.dropWhile_cons_of_neg hneg, List.append_nil]
  exact ⟨rfl, rfl⟩

theorem unwrap?_append (opening closing : Char) (cs : List Char) :
    unwrap? opening closing (opening :: (cs ++ [closing])) = some cs := by
  simp [unwrap?]

theorem unwrap?_eq_none {opening closing : Char} (h : ∀ c ∈ cs.head?, c ≠ opening) :
    unwrap? opening closing cs = none := by
  cases cs with
  | nil => rfl
  | cons c cs =>
    have hne : (c == opening) = false := by simpa using h c rfl
    simp [unwrap?, hne]

end Text

namespace Source

/-! ## Brackets -/

/-- The brackets of a text are balanced: whoever looks for the end of a bracket around it gets
past it. -/
def Nested (opening closing : Char) (cs : List Char) : Prop :=
  ∀ depth rest, untilClosed opening closing (depth + 1) (cs ++ rest) =
    (untilClosed opening closing (depth + 1) rest).map fun (inner, after) => (cs ++ inner, after)

section

variable {opening closing c : Char} {depth : Nat} {rest : List Char}

theorem untilClosed_cons_of_ne (ho : c ≠ opening) (hc : c ≠ closing) :
    untilClosed opening closing depth (c :: rest) =
      (untilClosed opening closing depth rest).map fun (inner, after) => (c :: inner, after) := by
  rcases depth with _ | _ | depth <;>
    simp [untilClosed, beq_false_of_ne ho, beq_false_of_ne hc]

theorem untilClosed_opening :
    untilClosed opening closing depth (opening :: rest) =
      (untilClosed opening closing (depth + 1) rest).map fun (inner, after) =>
        (opening :: inner, after) := by
  rcases depth with _ | _ | depth <;> simp [untilClosed]

end

namespace Nested

variable {opening closing : Char} {cs ds : List Char}

theorem append (h : Nested opening closing cs) (h' : Nested opening closing ds) :
    Nested opening closing (cs ++ ds) := by
  intro depth rest
  rw [List.append_assoc, h, h', Option.map_map]
  refine congrArg (Option.map · _) (funext fun found => ?_)
  simp

theorem of_notMem (hopening : opening ∉ cs) (hclosing : closing ∉ cs) :
    Nested opening closing cs := by
  intro depth rest
  induction cs with
  | nil => simp
  | cons c cs ih =>
    obtain ⟨ho, hopening⟩ := not_or.mp (mt List.mem_cons.mpr hopening)
    obtain ⟨hc, hclosing⟩ := not_or.mp (mt List.mem_cons.mpr hclosing)
    rw [List.cons_append, untilClosed_cons_of_ne (Ne.symm ho) (Ne.symm hc), ih hopening hclosing,
      Option.map_map]
    rfl

theorem wrap (hne : opening ≠ closing) (h : Nested opening closing cs) :
    Nested opening closing (opening :: cs ++ [closing]) := by
  intro depth rest
  have hclosing : (closing == opening) = false := by simpa using Ne.symm hne
  have hclosed : untilClosed opening closing (depth + 2) (closing :: rest) =
      (untilClosed opening closing (depth + 1) rest).map fun (inner, after) =>
        (closing :: inner, after) := by
    simp [untilClosed, hclosing]
  rw [List.cons_append, List.cons_append, untilClosed_opening, List.append_assoc,
    List.singleton_append, h (depth + 1), hclosed, Option.map_map, Option.map_map]
  refine congrArg (Option.map · _) (funext fun found => ?_)
  simp

theorem intercalate {sep : List Char} {items : List (List Char)} (hsep : Nested opening closing sep)
    (h : ∀ item ∈ items, Nested opening closing item) :
    Nested opening closing (sep.intercalate items) := by
  induction items with
  | nil => exact of_notMem List.not_mem_nil List.not_mem_nil
  | cons item items ih =>
    obtain ⟨hitem, hitems⟩ := List.forall_mem_cons.mp h
    by_cases hnil : items = []
    · subst hnil
      rwa [List.intercalate_singleton]
    · rw [List.intercalate_cons_of_ne_nil hnil]
      exact (hitem.append hsep).append (ih hitems)

/-- The contents of a bracket. -/
theorem bracketed_append (hne : opening ≠ closing) (h : Nested opening closing cs)
    (rest : List Char) :
    bracketed opening closing (opening :: (cs ++ closing :: rest)) = some (cs, rest) := by
  have hclosing : (closing == opening) = false := by simpa using Ne.symm hne
  rw [bracketed, beq_self_eq_true, if_pos rfl, h 0, untilClosed, hclosing, beq_self_eq_true]
  simp

-- quotes hide no brackets: this attribute list ends inside its string
example : bracketed '[' ']' "[a=\"]\"](%x)".toList = some ("a=\"".toList, "\"](%x)".toList) := by
  decide

end Nested

/-! ## Comma lists -/

/-- Inside so many brackets a text is no place to cut, and after it one stands inside as many. -/
def Passes (depth : Nat) (cs : List Char) : Prop :=
  ∀ piece rest, cutTopLevel depth false piece (cs ++ rest) =
    cutTopLevel depth false (cs.reverse ++ piece) rest

/-- The characters that matter for cutting. -/
def cutters : List Char := ['"', '(', ')', '[', ']', ',']

namespace Passes

variable {depth : Nat} {cs ds : List Char}

theorem append (h : Passes depth cs) (h' : Passes depth ds) : Passes depth (cs ++ ds) := by
  intro piece rest
  rw [List.append_assoc, h, h', List.reverse_append, List.append_assoc]

theorem of_notMem (h : ∀ c ∈ cs, c ∉ cutters) : Passes depth cs := by
  intro piece rest
  induction cs generalizing piece with
  | nil => rfl
  | cons c cs ih =>
    obtain ⟨hc, hcs⟩ := List.forall_mem_cons.mp h
    simp only [cutters, List.mem_cons, List.not_mem_nil, not_or, or_false] at hc
    obtain ⟨hquote, hround, hround', hsquare, hsquare', hcomma⟩ := hc
    rw [List.cons_append, cutTopLevel]
    simp only [beq_false_of_ne hquote, beq_false_of_ne hround, beq_false_of_ne hround',
      beq_false_of_ne hsquare, beq_false_of_ne hsquare', beq_false_of_ne hcomma]
    simpa using ih hcs (c :: piece)

/-- Inside brackets commas do not cut. -/
theorem comma : Passes (depth + 1) [','] := by
  intro piece rest
  rw [List.singleton_append, cutTopLevel]
  simp

theorem round (h : Passes (depth + 1) cs) : Passes depth ('(' :: cs ++ [')']) := by
  intro piece rest
  rw [List.cons_append, List.cons_append, cutTopLevel, List.append_assoc]
  simp [h ('(' :: piece), cutTopLevel]

theorem square (h : Passes (depth + 1) cs) : Passes depth ('[' :: cs ++ [']']) := by
  intro piece rest
  rw [List.cons_append, List.cons_append, cutTopLevel, List.append_assoc]
  simp [h ('[' :: piece), cutTopLevel]

/-- Inside quotes nothing cuts. -/
theorem quoted (h : '"' ∉ cs) : Passes depth ('"' :: cs ++ ['"']) := by
  have hinside : ∀ piece rest, cutTopLevel depth true piece (cs ++ rest) =
      cutTopLevel depth true (cs.reverse ++ piece) rest := by
    intro piece rest
    induction cs generalizing piece with
    | nil => rfl
    | cons c cs ih =>
      obtain ⟨hne, hrest⟩ := not_or.mp (mt List.mem_cons.mpr h)
      rw [List.cons_append, cutTopLevel]
      simpa [beq_false_of_ne (Ne.symm hne)] using ih hrest (c :: piece)
  intro piece rest
  rw [List.cons_append, List.cons_append, cutTopLevel, List.append_assoc]
  simp [hinside ('"' :: piece), cutTopLevel]

theorem intercalate {items : List (List Char)} (h : ∀ item ∈ items, Passes (depth + 1) item) :
    Passes (depth + 1) ([',', ' '].intercalate items) := by
  have hsep : Passes (depth + 1) [',', ' '] := comma.append (of_notMem (by decide))
  induction items with
  | nil => exact of_notMem (by simp [List.intercalate])
  | cons item items ih =>
    obtain ⟨hitem, hitems⟩ := List.forall_mem_cons.mp h
    by_cases hnil : items = []
    · subst hnil
      rwa [List.intercalate_singleton]
    · rw [List.intercalate_cons_of_ne_nil hnil]
      exact (hitem.append hsep).append (ih hitems)

end Passes

/-- An item of a comma list: it is not cut, has no blanks around it and is not empty. -/
structure Item (cs : List Char) : Prop where
  passes : Passes 0 cs
  tight : Text.Tight cs
  ne_nil : cs ≠ []

/-- Items come back from the list of them; a blank may follow. -/
theorem commaList_intercalate {items : List (List Char)} (h : ∀ item ∈ items, Item item)
    {tail : List Char} (htail : tail = [] ∨ tail = [' ']) :
    commaList ([',', ' '].intercalate items ++ tail) = items := by
  have hblank : Passes 0 tail ∧ ∀ cs, Text.trim (cs ++ tail) = Text.trim cs := by
    rcases htail with rfl | rfl
    · exact ⟨.of_notMem (by simp), fun cs => by rw [List.append_nil]⟩
    · exact ⟨.of_notMem (by decide), fun cs => Text.trim_concat_of_blank (by decide)⟩
  have hcomma : ∀ piece rest, cutTopLevel 0 false piece (',' :: rest) =
      Text.trim piece.reverse :: cutTopLevel 0 false [] rest := fun _ _ => rfl
  -- an item is cut off with the blank before it
  have hcut : ∀ (item : List Char) (items : List (List Char)) (piece : List Char),
      (∀ item ∈ items, Item item) → Passes 0 item →
        cutTopLevel 0 false piece ([',', ' '].intercalate (item :: items) ++ tail) =
          Text.trim (piece.reverse ++ item) :: items := by
    intro item items
    induction items generalizing item with
    | nil =>
      intro piece _ hitem
      rw [List.intercalate_singleton, hitem, ← List.append_nil tail, hblank.1, cutTopLevel]
      simp [← List.append_assoc, hblank.2]
    | cons next items ih =>
      intro piece hitems hitem
      obtain ⟨hnext, hitems⟩ := List.forall_mem_cons.mp hitems
      have hblank' : Passes 0 [' '] := .of_notMem (by decide)
      have hnext' : Text.trim ([' '] ++ next) = next :=
        (Text.trim_cons_of_blank (by decide)).trans hnext.tight.trim_eq
      rw [List.intercalate_cons_cons, List.append_assoc, List.append_assoc, hitem,
        List.cons_append, hcomma, hblank', ih next _ hitems hnext.passes, List.append_nil,
        List.reverse_reverse, hnext', List.reverse_append, List.reverse_reverse]
  cases items with
  | nil =>
    rw [List.intercalate_nil, List.nil_append, commaList, ← List.append_nil tail, hblank.1,
      cutTopLevel]
    have hempty : Text.trim (tail.reverse ++ []).reverse = [] := by
      rw [List.append_nil, List.reverse_reverse, ← List.nil_append tail, hblank.2]
      rfl
    rw [hempty]
  | cons item items =>
    obtain ⟨hitem, hitems⟩ := List.forall_mem_cons.mp h
    rw [commaList, hcut item items [] hitems hitem.passes, List.reverse_nil, List.nil_append,
      hitem.tight.trim_eq]
    split
    · next heq => exact absurd (List.cons.inj heq).1 hitem.ne_nil
    · rfl

end Source

end HybridGraph
