import HybridGraph.Proofs.Graph.Spelling
import HybridGraph.Proofs.Tensor.Stored
import HybridGraph.Tensor.InputSpec
/-!
# Texts of input contracts

A contract is written without blanks, and its marks `@` and `%`, its brackets and its separators
stand nowhere else in it.  So every contract whose range is in order is read as it was written, and
whatever is read, in whatever spelling, is such a contract:

    spec.Valid → parse spec.text = .ok spec                                             (parse_text)
    parse text = .ok spec → spec.Valid                                              (valid_of_parse)
-/

namespace HybridGraph

/-! ## Separators -/

namespace Text

variable {c : Char} {cs : List Char}

theorem splitAll_of_notMem (h : c ∉ cs) : splitAll c cs = [cs] := by
  induction cs with
  | nil => rfl
  | cons x cs ih =>
    obtain ⟨hne, hrest⟩ := not_or.mp (mt List.mem_cons.mpr h)
    have hx : (x == c) = false := by simpa using Ne.symm hne
    simp [splitAll, ih hrest, hx]

/-- What a separator joins comes back if the separator is in none of the parts. -/
theorem splitAll_intercalate {items : List (List Char)} (h : ∀ item ∈ items, c ∉ item)
    (hne : items ≠ []) : splitAll c ([c].intercalate items) = items := by
  induction items with
  | nil => exact absurd rfl hne
  | cons item items ih =>
    obtain ⟨hitem, hitems⟩ := List.forall_mem_cons.mp h
    by_cases hnil : items = []
    · subst hnil
      rw [List.intercalate_singleton, splitAll_of_notMem hitem]
    · rw [List.intercalate_cons_of_ne_nil hnil, List.append_assoc, List.singleton_append,
        splitAll_append hitem, ih hitems hnil]

/-- Only what is within the bounds of a word is read as a natural number. -/
theorem le_maxWord_of_nat? {n : Nat} (h : nat? cs = some n) : n ≤ maxWord := by
  simpa using (Option.filter_eq_some_iff.mp h).2

end Text

/-! ## Parts of a text -/

namespace DType

theorem parse_dtypeName (dtype : DType) : parse dtype.name = .ok dtype := by cases dtype <;> rfl

/-- The spelling of an element type has no blank and no mark. -/
theorem forall_mem_dtypeName (dtype : DType) :
    ∀ c ∈ dtype.name.toList, Text.isBlank c = false ∧ c ≠ '%' := by
  cases dtype <;> decide

end DType

/-- A layout ends a text by nothing at all, or by a mark and its spelling. -/
theorem TensorFormat.suffix_cases (format : TensorFormat) :
    (format = .contiguous ∧ format.suffix.toList = []) ∨
      ∃ word, format.suffix.toList = '%' :: word ∧ parse (String.ofList word) = .ok format ∧
        ∀ c ∈ word, Text.isBlank c = false := by
  cases format with
  | contiguous => exact .inl ⟨rfl, rfl⟩
  | channelsLast => exact .inr ⟨"nhwc".toList, rfl, rfl, by decide⟩
  | unknown => exact .inr ⟨"unknown".toList, rfl, rfl, by decide⟩

namespace ShapeSpec

variable {c : Char}

/-- The characters that shapes are written with. -/
def isShapeChar (c : Char) : Bool := c.isDigit || ['(', ',', ')', '[', ';', ']'].contains c

theorem isBlank_of_isShapeChar (h : isShapeChar c = true) : Text.isBlank c = false := by
  simp only [isShapeChar, Bool.or_eq_true, List.contains_iff_mem] at h
  rcases h with hdigit | hother
  · exact Text.isBlank_of_isNumeral (Text.isNumeral_of_isDigit hdigit)
  · revert hother c
    decide

/-- Extents in parentheses, as characters. -/
theorem toList_tupleText (dims : List Nat) : (tupleText dims).toList =
    '(' :: ([','].intercalate (dims.map fun n => (toString n).toList) ++ [')']) := by
  simp [tupleText, Function.comp_def]

theorem toList_ranged (lo mid hi : List Nat) : (ranged lo mid hi).text.toList = '[' ::
    ([';'].intercalate ([lo, mid, hi].map fun dims => (tupleText dims).toList) ++ [']']) := by
  have htext : (ranged lo mid hi).text =
      "[" ++ tupleText lo ++ ";" ++ tupleText mid ++ ";" ++ tupleText hi ++ "]" := rfl
  simp [htext]

theorem isDigit_of_mem_toString {n : Nat} (h : c ∈ (toString n).toList) : c.isDigit = true := by
  rw [Text.toList_toString_nat] at h
  exact Text.isDigit_of_mem_toDigits h

/-- What holds of a separator and of all items holds of the text that they are joined to. -/
theorem forall_mem_intercalate {p : Char → Prop} {sep : List Char} {items : List (List Char)}
    (hsep : ∀ c ∈ sep, p c) (h : ∀ item ∈ items, ∀ c ∈ item, p c) :
    ∀ c ∈ sep.intercalate items, p c := by
  intro c hc
  by_contra hp
  exact Source.notMem_intercalate (fun hmem => hp (hsep c hmem))
    (fun item hitem hmem => hp (h item hitem c hmem)) hc

/-- Extents are written with digits, parentheses and commas. -/
theorem forall_mem_tupleText (dims : List Nat) :
    ∀ c ∈ (tupleText dims).toList, isShapeChar c = true ∧ c ≠ ';' := by
  have hdigits : ∀ item ∈ dims.map fun n => (toString n).toList, ∀ c ∈ item,
      isShapeChar c = true ∧ c ≠ ';' := by
    intro item hitem c hc
    obtain ⟨n, -, rfl⟩ := List.mem_map.mp hitem
    have hdigit := isDigit_of_mem_toString hc
    refine ⟨by rw [isShapeChar, hdigit, Bool.true_or], ?_⟩
    rintro rfl
    cases hdigit
  rw [toList_tupleText, List.forall_mem_cons, List.forall_mem_append]
  exact ⟨by decide, forall_mem_intercalate (by decide) hdigits, by decide⟩

theorem forall_mem_text (s : ShapeSpec) : ∀ c ∈ s.text.toList, isShapeChar c = true := by
  have htuple : ∀ dims, ∀ c ∈ (tupleText dims).toList, isShapeChar c = true :=
    fun dims c hc => (forall_mem_tupleText dims c hc).1
  cases s with
  | fixed dims => exact htuple dims
  | ranged lo mid hi =>
    rw [toList_ranged, List.forall_mem_cons, List.forall_mem_append]
    refine ⟨by decide, forall_mem_intercalate (by decide) fun item hitem => ?_, by decide⟩
    obtain ⟨dims, -, rfl⟩ := List.mem_map.mp hitem
    exact htuple dims

end ShapeSpec

/-! ## Reading what was written -/

namespace InputSpec

open ShapeSpec (tupleText isShapeChar)

/-- A contract that can be held: extents are machine words, and a range is in order. -/
structure Valid (spec : InputSpec) : Prop where
  ordered : spec.check = .ok ()
  words : spec.shape.Storable

theorem isDigit_of_mem_extents {dims : List Nat} :
    ∀ item ∈ dims.map fun n => (toString n).toList, ∀ c ∈ item, c.isDigit = true := by
  intro item hitem c hc
  obtain ⟨n, -, rfl⟩ := List.mem_map.mp hitem
  exact ShapeSpec.isDigit_of_mem_toString hc

theorem splitAll_extents {dims : List Nat} (hne : dims ≠ []) :
    Text.splitAll ',' ([','].intercalate (dims.map fun n => (toString n).toList)) =
      dims.map fun n => (toString n).toList :=
  Text.splitAll_intercalate (fun item hitem hc =>
    absurd (isDigit_of_mem_extents item hitem ',' hc) (by decide)) (by simpa using hne)

theorem mapM_nat?_extents {dims : List Nat} (h : ∀ n ∈ dims, n ≤ Text.maxWord) :
    (dims.map fun n => (toString n).toList).mapM (fun part => Text.nat? (Text.trim part)) =
      some dims := by
  refine Source.mapM_map_eq_some fun n hn => ?_
  have htight : Text.Tight (toString n).toList := .of_forall fun c hc =>
    Text.isBlank_of_isNumeral (Text.isNumeral_of_isDigit (ShapeSpec.isDigit_of_mem_toString hc))
  rw [htight.trim_eq, Text.nat?_toString (h n hn)]

/-- Extents are not blank: an empty text would have one empty part, which is no number. -/
theorem isEmpty_trim_extents {dims : List Nat} (hne : dims ≠ []) :
    (Text.trim ([','].intercalate (dims.map fun n => (toString n).toList))).isEmpty = false := by
  have hblank : ∀ c ∈ [','].intercalate (dims.map fun n => (toString n).toList),
      Text.isBlank c = false :=
    ShapeSpec.forall_mem_intercalate (by decide) fun item hitem c hc =>
      Text.isBlank_of_isNumeral (Text.isNumeral_of_isDigit (isDigit_of_mem_extents item hitem c hc))
  have hsplit := splitAll_extents hne
  rw [(Text.Tight.of_forall hblank).trim_eq, List.isEmpty_eq_false_iff]
  intro hempty
  rw [hempty] at hsplit
  have hmem : [] ∈ dims.map fun n => (toString n).toList := by
    rw [← hsplit]
    exact List.mem_singleton_self _
  obtain ⟨n, -, hn⟩ := List.mem_map.mp hmem
  rw [Text.toList_toString_nat] at hn
  exact Nat.toDigits_ne_nil hn

theorem parseTuple_tupleText {dims : List Nat} (h : ∀ n ∈ dims, n ≤ Text.maxWord) :
    parseTuple (tupleText dims).toList = .ok dims := by
  have htight : Text.Tight (tupleText dims).toList := .of_forall fun c hc =>
    ShapeSpec.isBlank_of_isShapeChar (ShapeSpec.forall_mem_tupleText dims c hc).1
  unfold parseTuple
  rw [htight.trim_eq, ShapeSpec.toList_tupleText, Text.unwrap?_append]
  dsimp only
  by_cases hnil : dims = []
  · subst hnil
    rfl
  · rw [isEmpty_trim_extents hnil, splitAll_extents hnil, mapM_nat?_extents h]
    rfl

theorem parseShape_text {s : ShapeSpec} (hcheck : s.check = .ok ()) (hwords : s.Storable)
    (whole : String) : parseShape whole s.text.toList = .ok s := by
  cases s with
  | fixed dims =>
    have hread := parseTuple_tupleText hwords
    have hhead : (tupleText dims).toList.head? = some '(' := by
      rw [ShapeSpec.toList_tupleText]
      rfl
    show parseShape whole (tupleText dims).toList = _
    unfold parseShape
    rw [hhead, hread]
    rfl
  | ranged lo mid hi =>
    obtain ⟨hlo, hmid, hhi⟩ := hwords
    have hsemicolon : ∀ item ∈ [lo, mid, hi].map fun dims => (tupleText dims).toList,
        ';' ∉ item := by
      intro item hitem hc
      obtain ⟨dims, -, rfl⟩ := List.mem_map.mp hitem
      exact (ShapeSpec.forall_mem_tupleText dims ';' hc).2 rfl
    have htuples : ([lo, mid, hi].map fun dims => (tupleText dims).toList).mapM parseTuple =
        .ok [lo, mid, hi] := by
      refine Outcome.mapM_eq_ok.mpr (List.forall₂_map_left_iff.mpr (List.forall₂_same.mpr ?_))
      simp only [List.forall_mem_cons]
      exact ⟨parseTuple_tupleText hlo, parseTuple_tupleText hmid, parseTuple_tupleText hhi,
        by simp⟩
    have hrange : ShapeSpec.range lo mid hi = .ok (.ranged lo mid hi) := by
      rw [ShapeSpec.range, hcheck]
      rfl
    rw [ShapeSpec.toList_ranged]
    unfold parseShape
    rw [Text.unwrap?_append]
    dsimp only
    rw [Text.splitAll_intercalate hsemicolon (by simp), htuples]
    show (ShapeSpec.range lo mid hi).mapError _ = _
    rw [hrange]
    rfl

/-- A shape has none of the marks that a contract is cut at. -/
theorem plain_shape (shape : ShapeSpec) :
    ∀ c ∈ shape.text.toList, Text.isBlank c = false ∧ c ≠ '@' ∧ c ≠ '%' := by
  intro c hc
  have hshape := ShapeSpec.forall_mem_text shape c hc
  refine ⟨ShapeSpec.isBlank_of_isShapeChar hshape, ?_, ?_⟩ <;>
    · rintro rfl
      cases hshape

theorem toList_text (spec : InputSpec) : spec.text.toList =
    spec.shape.text.toList ++ '@' :: (spec.dtype.name.toList ++ spec.format.suffix.toList) := by
  have hjoined : spec.text = spec.shape.text ++ "@" ++ spec.dtype.name ++ spec.format.suffix := rfl
  simp [hjoined]

theorem tight_text (spec : InputSpec) : Text.Tight spec.text.toList := by
  refine .of_forall ?_
  rw [toList_text, List.forall_mem_append, List.forall_mem_cons, List.forall_mem_append]
  refine ⟨fun c hc => (plain_shape _ c hc).1, by decide,
    fun c hc => (spec.dtype.forall_mem_dtypeName c hc).1, ?_⟩
  rcases spec.format.suffix_cases with ⟨-, hsuffix⟩ | ⟨word, hsuffix, -, hword⟩
  · simp [hsuffix]
  · rw [hsuffix, List.forall_mem_cons]
    exact ⟨by decide, hword⟩

theorem percent_notMem (shape : ShapeSpec) (dtype : DType) :
    '%' ∉ shape.text.toList ++ '@' :: dtype.name.toList := by
  rw [List.mem_append, List.mem_cons, not_or, not_or]
  exact ⟨fun hc => (plain_shape shape '%' hc).2.2 rfl, by decide,
    fun hc => (dtype.forall_mem_dtypeName '%' hc).2 rfl⟩

/-- A contract is read as it was written. -/
theorem parse_text {spec : InputSpec} (h : spec.Valid) : parse spec.text = .ok spec := by
  have htight := tight_text spec
  have hchars := toList_text spec
  obtain ⟨shape, dtype, format⟩ := spec
  have hcheck : shape.check = .ok () := Outcome.mapError_eq_ok.mp h.ordered
  have hshape := parseShape_text hcheck h.words
  have htrim : Text.trim shape.text.toList = shape.text.toList :=
    (Text.Tight.of_forall fun c hc => (plain_shape shape c hc).1).trim_eq
  have hat : Text.splitFirst '@' (shape.text.toList ++ '@' :: dtype.name.toList) =
      some (shape.text.toList, dtype.name.toList) :=
    Text.splitFirst_append (fun hc => (plain_shape shape '@' hc).2.1 rfl) _
  have hpercent := percent_notMem shape dtype
  unfold parse
  rw [htight.trim_eq, hchars]
  rcases format.suffix_cases with ⟨rfl, hsuffix⟩ | ⟨word, hsuffix, hformat, -⟩
  · simp only [hsuffix, List.append_nil, Text.splitFirst_eq_none hpercent, hat,
      String.ofList_toList, DType.parse_dtypeName, htrim, hshape, pure_bind]
    rfl
  · rw [hsuffix, ← List.cons_append, ← List.append_assoc]
    simp only [Text.splitFirst_append hpercent, Outcome.bind_of_eq_ok hformat, hat,
      String.ofList_toList, DType.parse_dtypeName, htrim, hshape, pure_bind]
    rfl

/-! ## What can be read -/

theorem storable_of_parseTuple {cs : List Char} {dims : List Nat} (h : parseTuple cs = .ok dims) :
    ∀ n ∈ dims, n ≤ Text.maxWord := by
  unfold parseTuple at h
  split at h
  · cases h
  split at h
  · obtain rfl := Except.ok.inj h
    simp
  split at h
  · next read hread =>
    obtain rfl := Except.ok.inj h
    intro n hn
    obtain ⟨part, -, hpart⟩ := Outcome.exists_of_mem_mapM hread hn
    exact Text.le_maxWord_of_nat? hpart
  · cases h

theorem valid_of_parseShape {whole : String} {cs : List Char} {s : ShapeSpec}
    (h : parseShape whole cs = .ok s) : s.check = .ok () ∧ s.Storable := by
  unfold parseShape at h
  split at h
  · obtain ⟨dims, hdims, h⟩ := Outcome.bind_eq_ok.mp h
    obtain rfl := Outcome.pure_eq_ok.mp h
    exact ⟨rfl, storable_of_parseTuple hdims⟩
  split at h
  · cases h
  obtain ⟨tuples, htuples, h⟩ := Outcome.bind_eq_ok.mp h
  split at h
  · next lo mid hi =>
    obtain ⟨⟨⟩, hcheck, h⟩ := Outcome.bind_eq_ok.mp (Outcome.mapError_eq_ok.mp h)
    obtain rfl := Outcome.pure_eq_ok.mp h
    have hwords : ∀ dims ∈ [lo, mid, hi], ∀ n ∈ dims, n ≤ Text.maxWord := by
      intro dims hdims
      obtain ⟨cs, -, hread⟩ :=
        Outcome.exists_of_forall₂ (Outcome.mapM_eq_ok.mp htuples).flip hdims
      exact storable_of_parseTuple hread
    simp only [List.forall_mem_cons] at hwords
    exact ⟨hcheck, hwords.1, hwords.2.1, hwords.2.2.1⟩
  · cases h

theorem exists_parseShape_of_parse {text : String} {spec : InputSpec}
    (h : parse text = .ok spec) : ∃ cs, parseShape text cs = .ok spec.shape := by
  have hlast {cs : List Char} {dtype : DType} {format : TensorFormat}
      (h : (parseShape text cs >>= fun shape => pure ⟨shape, dtype, format⟩) = .ok spec) :
      ∃ cs, parseShape text cs = .ok spec.shape := by
    obtain ⟨shape, hshape, h⟩ := Outcome.bind_eq_ok.mp h
    obtain rfl := Outcome.pure_eq_ok.mp h
    exact ⟨cs, hshape⟩
  unfold parse at h
  simp only [pure_bind] at h
  -- with or without a layout, and then with or without an element type
  split at h
  · obtain ⟨format, -, h⟩ := Outcome.bind_eq_ok.mp h
    split at h
    · obtain ⟨dtype, -, h⟩ := Outcome.bind_eq_ok.mp h
      exact hlast h
    · exact hlast h
  · split at h
    · obtain ⟨dtype, -, h⟩ := Outcome.bind_eq_ok.mp h
      exact hlast h
    · exact hlast h

/-- Whatever is read is a contract that can be held. -/
theorem valid_of_parse {text : String} {spec : InputSpec} (h : parse text = .ok spec) :
    spec.Valid := by
  obtain ⟨cs, hshape⟩ := exists_parseShape_of_parse h
  obtain ⟨hcheck, hwords⟩ := valid_of_parseShape hshape
  exact ⟨Outcome.mapError_eq_ok.mpr hcheck, hwords⟩

/-- Texts and contracts answer each other: a contract that can be held is read as it was written,
and a text that is read, in whichever of the accepted spellings, gives a contract that can be held
and that comes back from its own text. -/
theorem text_roundTrips :
    (∀ spec : InputSpec, spec.Valid → parse spec.text = .ok spec) ∧
      ∀ (text : String) (spec : InputSpec), parse text = .ok spec →
        spec.Valid ∧ parse spec.text = .ok spec :=
  ⟨fun _ h => parse_text h, fun _ _ h => ⟨valid_of_parse h, parse_text (valid_of_parse h)⟩⟩

/-- A range of batch sizes, in half precision. -/
theorem text_roundTrips_batches :
    parse "[(1,4);(2,4);(8,4)]@f16%nhwc" = .ok ⟨.ranged [1, 4] [2, 4] [8, 4], .f16, .channelsLast⟩ ∧
      InputSpec.Valid ⟨.ranged [1, 4] [2, 4] [8, 4], .f16, .channelsLast⟩ ∧
        parse (text ⟨.ranged [1, 4] [2, 4] [8, 4], .f16, .channelsLast⟩) =
          .ok ⟨.ranged [1, 4] [2, 4] [8, 4], .f16, .channelsLast⟩ := by
  have hvalid : InputSpec.Valid ⟨.ranged [1, 4] [2, 4] [8, 4], .f16, .channelsLast⟩ :=
    ⟨by decide, by simp only [ShapeSpec.Storable]; decide⟩
  have hread := text_roundTrips.1 _ hvalid
  exact ⟨hread, text_roundTrips.2 _ _ hread⟩

end InputSpec

end HybridGraph
