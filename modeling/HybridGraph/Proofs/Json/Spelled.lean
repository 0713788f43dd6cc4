import HybridGraph.Proofs.Json.Numbers
/-!
# The grammar of JSON text

`Spells cs j` says that `cs` is a text of the value `j`, with blanks wherever a writer may put them.
The reader takes such a text, and no more, wherever it stands before a character that ends it:

    Spells cs j → cs.length ≤ steps → Ends rest →
      value? steps (cs ++ rest) = some (j, rest)                                (value?_of_spells)
    Spells cs j → ofChars? cs = some j                                        (ofChars?_of_spells)
-/

namespace HybridGraph.Json

/-! ## Strings -/

/-- The characters of a string in quotes. -/
def quoteChars (s : String) : List Char := '"' :: s.toList.flatMap escapeChar ++ ['"']

theorem toList_foldl_push (cs : List Char) (out : String) :
    (cs.foldl String.push out).toList = out.toList ++ cs := by
  induction cs generalizing out with
  | nil => simp
  | cons c cs ih =>
    rw [List.foldl_cons, ih, String.toList_push, List.append_assoc]
    rfl

theorem toList_quote (s : String) : (quote s).toList = quoteChars s := by
  have hall : ∀ (cs : List Char) (out : String),
      (cs.foldl (fun out c => (escapeChar c).foldl String.push out) out).toList =
        out.toList ++ cs.flatMap escapeChar := by
    intro cs
    induction cs with
    | nil => simp
    | cons c cs ih =>
      intro out
      rw [List.foldl_cons, ih, toList_foldl_push, List.flatMap_cons, List.append_assoc]
  rw [quote, String.toList_append, hall, quoteChars]
  simp

theorem hex4?_escape {n : Nat} (h : n < 32) (rest : List Char) :
    hex4? ('0' :: '0' :: hexDigit (n / 16) :: hexDigit (n % 16) :: rest) = some (n, rest) := by
  have hdigits : ∀ n < 32, hexValue? (hexDigit (n / 16)) = some (n / 16) ∧
      hexValue? (hexDigit (n % 16)) = some (n % 16) := by decide
  have hzero : hexValue? '0' = some 0 := rfl
  obtain ⟨hhigh, hlow⟩ := hdigits n h
  have hvalue : ((0 * 16 + 0) * 16 + n / 16) * 16 + n % 16 = n := by omega
  simp only [hex4?, hzero, hhigh, hlow, Option.bind_eq_bind, Option.bind_some, hvalue]
  rfl

theorem unicodeEscape?_escape {c : Char} (h : c.toNat < 32) (rest : List Char) :
    unicodeEscape? ('0' :: '0' :: hexDigit (c.toNat / 16) :: hexDigit (c.toNat % 16) :: rest) =
      some (c, rest) := by
  unfold unicodeEscape?
  rw [hex4?_escape h]
  have hlow : ¬(0xDC00 ≤ c.toNat ∧ c.toNat ≤ 0xDFFF) := by omega
  have hhigh : ¬(0xD800 ≤ c.toNat ∧ c.toNat ≤ 0xDBFF) := by omega
  simp [hlow, hhigh]

/-- One character is read in one step, however it is escaped. -/
theorem stringBody?_escapeChar (steps : Nat) (out : String) (c : Char) (rest : List Char) :
    stringBody? (steps + 1) out (escapeChar c ++ rest) = stringBody? steps (out.push c) rest := by
  by_cases hshort : c ∈ ['"', '\\', '\n', '\t', '\r', Char.ofNat 8, Char.ofNat 12]
  · simp only [List.mem_cons, List.not_mem_nil, or_false] at hshort
    obtain rfl | rfl | rfl | rfl | rfl | rfl | rfl := hshort <;> rfl
  · have hcode : ∀ n, c.toNat = n → c = Char.ofNat n := fun n h => h ▸ (Char.ofNat_toNat c).symm
    have height : c.toNat ≠ 8 := fun h => hshort (by simp [hcode 8 h])
    have htwelve : c.toNat ≠ 12 := fun h => hshort (by simp [hcode 12 h])
    simp only [List.mem_cons, List.not_mem_nil, or_false, not_or] at hshort
    obtain ⟨hquote, hback, hline, htab, hreturn, -, -⟩ := hshort
    by_cases hcontrol : c.toNat < 32
    · have hescape : escapeChar c =
          ['\\', 'u', '0', '0', hexDigit (c.toNat / 16), hexDigit (c.toNat % 16)] := by
        simp [escapeChar, hquote, hback, hline, htab, hreturn, height, htwelve, hcontrol]
      rw [hescape]
      simp only [List.cons_append, List.nil_append]
      rw [stringBody?]
      simp [unicodeEscape?_escape hcontrol]
    · have hplain : escapeChar c = [c] := by
        simp [escapeChar, hquote, hback, hline, htab, hreturn, height, htwelve, hcontrol]
      rw [hplain, List.singleton_append]
      simp [stringBody?, hquote, hback, hcontrol]

theorem escapeChar_ne_nil (c : Char) : escapeChar c ≠ [] := by
  unfold escapeChar
  split_ifs <;> exact List.cons_ne_nil _ _

/-- The text of a string is read as the string. -/
theorem stringBody?_quoted (cs : List Char) {steps : Nat}
    (hsteps : (cs.flatMap escapeChar).length < steps) (out : String) (rest : List Char) :
    stringBody? steps out (cs.flatMap escapeChar ++ '"' :: rest) =
      some (out ++ String.ofList cs, rest) := by
  induction cs generalizing steps out with
  | nil =>
    obtain ⟨steps, rfl⟩ := Nat.exists_eq_succ_of_ne_zero (Nat.ne_zero_of_lt hsteps)
    simp [stringBody?]
  | cons c cs ih =>
    obtain ⟨steps, rfl⟩ := Nat.exists_eq_succ_of_ne_zero (Nat.ne_zero_of_lt hsteps)
    have hescape := List.length_pos_of_ne_nil (escapeChar_ne_nil c)
    rw [List.flatMap_cons, List.length_append] at hsteps
    rw [List.flatMap_cons, List.append_assoc, stringBody?_escapeChar, ih (by omega)]
    have hout : out.push c ++ String.ofList cs = out ++ String.ofList (c :: cs) := by
      rw [← String.toList_inj]
      simp
    rw [hout]

/-! ## Blanks -/

/-- The text is made of blanks. -/
def Blank (cs : List Char) : Prop := ∀ c ∈ cs, isSpace c = true

theorem blank_nil : Blank [] := fun _ h => nomatch h

theorem skipSpace_blank {bs : List Char} (h : Blank bs) (cs : List Char) :
    skipSpace (bs ++ cs) = skipSpace cs :=
  List.dropWhile_append_of_pos h

theorem skipSpace_cons {c : Char} (h : isSpace c = false) (cs : List Char) :
    skipSpace (c :: cs) = c :: cs :=
  List.dropWhile_cons_of_neg (by simp [h])

theorem value?_blank {bs : List Char} (h : Blank bs) (steps : Nat) (cs : List Char) :
    value? steps (bs ++ cs) = value? steps cs := by
  cases steps with
  | zero => rfl
  | succ steps =>
    rw [value?, skipSpace_blank h]
    rfl

theorem fields?_blank {bs : List Char} (h : Blank bs) (steps : Nat) (done : List (String × Json))
    (cs : List Char) : fields? steps done (bs ++ cs) = fields? steps done cs := by
  cases steps with
  | zero => rfl
  | succ steps =>
    rw [fields?, skipSpace_blank h]
    rfl

/-! ## Values -/

mutual

/-- The text spells a value: a number is spelled as it is read and a string as it is written, and
blanks may follow an opening bracket, a comma and a colon. -/
inductive Spells : List Char → Json → Prop
  | null : Spells ['n', 'u', 'l', 'l'] .null
  | bool (b : Bool) : Spells (scalarText (.bool b)).toList (.bool b)
  | number {cs : List Char} {j : Json} : Numeral cs j → Spells cs j
  | string (s : String) : Spells (quoteChars s) (.string s)
  | emptyArray : Spells ['[', ']'] (.array [])
  | array {bs cs ds : List Char} {item : Json} {items : List Json} :
      Blank bs → Spells cs item → SpellsItems ds items →
        Spells ('[' :: (bs ++ (cs ++ ds))) (.array (item :: items))
  | emptyObject : Spells ['\x7b', '\x7d'] (.object [])
  | object {bs ds cs es : List Char} {key : String} {value : Json}
      {fields : List (String × Json)} :
      Blank bs → Blank ds → Spells cs value → SpellsFields es fields →
        Spells ('\x7b' :: (bs ++ (quoteChars key ++ ':' :: (ds ++ (cs ++ es)))))
          (.object ((key, value) :: fields))

/-- The text spells the further items of a list and its closing bracket. -/
inductive SpellsItems : List Char → List Json → Prop
  | close {bs : List Char} : Blank bs → SpellsItems (bs ++ [']']) []
  | next {bs cs ds : List Char} {item : Json} {items : List Json} :
      Blank bs → Spells cs item → SpellsItems ds items →
        SpellsItems (',' :: (bs ++ (cs ++ ds))) (item :: items)

/-- The text spells the further fields of an object and its closing brace. -/
inductive SpellsFields : List Char → List (String × Json) → Prop
  | close {bs : List Char} : Blank bs → SpellsFields (bs ++ ['\x7d']) []
  | next {bs ds cs es : List Char} {key : String} {value : Json}
      {fields : List (String × Json)} :
      Blank bs → Blank ds → Spells cs value → SpellsFields es fields →
        SpellsFields (',' :: (bs ++ (quoteChars key ++ ':' :: (ds ++ (cs ++ es)))))
          ((key, value) :: fields)

end

/-- A value starts with a character that is neither blank nor a closing bracket. -/
theorem Spells.exists_cons {cs : List Char} {j : Json} (h : Spells cs j) :
    ∃ c ds, cs = c :: ds ∧ isSpace c = false ∧ c ≠ ']' := by
  cases h with
  | null => exact ⟨'n', _, rfl, rfl, by decide⟩
  | bool b =>
    cases b
    · exact ⟨'f', _, rfl, rfl, by decide⟩
    · exact ⟨'t', _, rfl, rfl, by decide⟩
  | number h =>
    cases cs with
    | nil => cases h.reads
    | cons c cs =>
      have hc := h.numerals c List.mem_cons_self
      exact ⟨c, cs, rfl, isSpace_of_isNumeral hc, by rintro rfl; cases hc⟩
  | string s => exact ⟨'"', _, rfl, rfl, by decide⟩
  | emptyArray => exact ⟨'[', _, rfl, rfl, by decide⟩
  | array => exact ⟨'[', _, rfl, rfl, by decide⟩
  | emptyObject => exact ⟨'\x7b', _, rfl, rfl, by decide⟩
  | object => exact ⟨'\x7b', _, rfl, rfl, by decide⟩

theorem ends_blank {bs : List Char} (h : Blank bs) {cs : List Char} (hcs : Ends cs) :
    Ends (bs ++ cs) := by
  cases bs with
  | nil => exact hcs
  | cons b bs =>
    have hb := h b List.mem_cons_self
    simp only [isSpace, Bool.or_eq_true, beq_iff_eq] at hb
    obtain ((rfl | rfl) | rfl) | rfl := hb <;>
      exact ends_cons rfl (by decide) (by decide) (by decide)

theorem SpellsItems.ends {cs : List Char} {items : List Json} (h : SpellsItems cs items)
    (rest : List Char) : Ends (cs ++ rest) := by
  cases h with
  | close hbs =>
    rw [List.append_assoc]
    exact ends_blank hbs (ends_cons rfl (by decide) (by decide) (by decide))
  | next => exact ends_cons rfl (by decide) (by decide) (by decide)

theorem SpellsFields.ends {cs : List Char} {fields : List (String × Json)}
    (h : SpellsFields cs fields) (rest : List Char) : Ends (cs ++ rest) := by
  cases h with
  | close hbs =>
    rw [List.append_assoc]
    exact ends_blank hbs (ends_cons rfl (by decide) (by decide) (by decide))
  | next => exact ends_cons rfl (by decide) (by decide) (by decide)

theorem SpellsItems.length_pos {cs : List Char} {items : List Json} (h : SpellsItems cs items) :
    0 < cs.length := by
  cases h <;> simp

theorem SpellsFields.length_pos {cs : List Char} {fields : List (String × Json)}
    (h : SpellsFields cs fields) : 0 < cs.length := by
  cases h <;> simp

/-! ## Reading what is spelled -/

theorem stringBody?_quoteChars (s : String) (rest : List Char) :
    stringBody? ((s.toList.flatMap escapeChar ++ '"' :: rest).length + 1) ""
      (s.toList.flatMap escapeChar ++ '"' :: rest) = some (s, rest) := by
  have hsteps : (s.toList.flatMap escapeChar).length <
      (s.toList.flatMap escapeChar ++ '"' :: rest).length + 1 := by
    rw [List.length_append]
    omega
  rw [stringBody?_quoted s.toList hsteps]
  simp

theorem quoteChars_append (s : String) (rest : List Char) :
    quoteChars s ++ rest = '"' :: (s.toList.flatMap escapeChar ++ '"' :: rest) := by
  simp [quoteChars]

theorem value?_quoteChars (steps : Nat) (s : String) (rest : List Char) :
    value? (steps + 1) (quoteChars s ++ rest) = some (.string s, rest) := by
  rw [quoteChars_append]
  show (stringBody? _ "" _).map _ = _
  rw [stringBody?_quoteChars]
  rfl

theorem value?_array {steps : Nat} {bs cs : List Char} {c : Char} (hbs : Blank bs)
    (hc : isSpace c = false) (hclose : c ≠ ']') :
    value? (steps + 1) ('[' :: (bs ++ c :: cs)) = items? steps [] (c :: cs) := by
  have hskip : skipSpace (bs ++ c :: cs) = c :: cs := by
    rw [skipSpace_blank hbs, skipSpace_cons hc]
  rw [value?, skipSpace_cons rfl]
  simp [hskip, hclose]

theorem items?_close {steps : Nat} {done : List Json} {cs bs rest : List Char} {item : Json}
    (h : value? steps cs = some (item, bs ++ ']' :: rest)) (hbs : Blank bs) :
    items? (steps + 1) done cs = some (.array (item :: done).reverse, rest) := by
  have hskip : skipSpace (bs ++ ']' :: rest) = ']' :: rest := by
    rw [skipSpace_blank hbs, skipSpace_cons rfl]
  simp only [items?, h, hskip]

theorem items?_next {steps : Nat} {done : List Json} {cs rest : List Char} {item : Json}
    (h : value? steps cs = some (item, ',' :: rest)) :
    items? (steps + 1) done cs = items? steps (item :: done) rest := by
  rw [items?, h]
  rfl

theorem value?_object {steps : Nat} {bs : List Char} (hbs : Blank bs) (key : String)
    (cs : List Char) : value? (steps + 1) ('\x7b' :: (bs ++ (quoteChars key ++ cs))) =
      fields? steps [] (quoteChars key ++ cs) := by
  rw [quoteChars_append, value?, skipSpace_cons rfl]
  simp [skipSpace_blank hbs, skipSpace_cons (c := '"') rfl]

theorem fields?_close {steps : Nat} {done : List (String × Json)} {key : String}
    {cs bs rest : List Char} {value : Json}
    (h : value? steps cs = some (value, bs ++ '\x7d' :: rest)) (hbs : Blank bs) :
    fields? (steps + 1) done (quoteChars key ++ ':' :: cs) =
      some (.object ((key, value) :: done).reverse, rest) := by
  have hskip : skipSpace (bs ++ '\x7d' :: rest) = '\x7d' :: rest := by
    rw [skipSpace_blank hbs, skipSpace_cons rfl]
  have hcolon : skipSpace (':' :: cs) = ':' :: cs := skipSpace_cons rfl cs
  rw [fields?, quoteChars_append, skipSpace_cons rfl]
  simp only [stringBody?_quoteChars, hcolon, h, hskip]

theorem fields?_next {steps : Nat} {done : List (String × Json)} {key : String}
    {cs rest : List Char} {value : Json} (h : value? steps cs = some (value, ',' :: rest)) :
    fields? (steps + 1) done (quoteChars key ++ ':' :: cs) =
      fields? steps ((key, value) :: done) rest := by
  have hskip : skipSpace (',' :: rest) = ',' :: rest := skipSpace_cons rfl rest
  have hcolon : skipSpace (':' :: cs) = ':' :: cs := skipSpace_cons rfl cs
  rw [fields?, quoteChars_append, skipSpace_cons rfl]
  simp only [stringBody?_quoteChars, hcolon, h, hskip]

mutual

/-- A spelled value is read up to where it ends. -/
theorem value?_of_spells : ∀ (steps : Nat) {cs rest : List Char} {j : Json}, Spells cs j →
    cs.length ≤ steps → Ends rest → value? steps (cs ++ rest) = some (j, rest)
  | 0, cs, rest, j, h, hsteps, hends => by
    obtain ⟨c, ds, rfl, -⟩ := h.exists_cons
    cases hsteps
  | steps + 1, cs, rest, j, h, hsteps, hends => by
    cases h with
    | null => rfl
    | bool b => cases b <;> rfl
    | number h => exact h.value?_append hends steps
    | string s => exact value?_quoteChars steps s rest
    | emptyArray => rfl
    | @array bs cs ds item items hbs hitem hitems =>
      simp only [List.length_cons, List.length_append] at hsteps
      have hread := items?_of_spells steps [] rest blank_nil hitem hitems (by omega)
      obtain ⟨c, cs, rfl, hc, hclose⟩ := hitem.exists_cons
      simp only [List.append_assoc, List.cons_append, List.nil_append] at hread ⊢
      rw [value?_array hbs hc hclose, hread]
      rfl
    | emptyObject => rfl
    | @object bs ds cs es key value fields hbs hds hvalue hfields =>
      simp only [List.length_cons, List.length_append] at hsteps
      have hread := fields?_of_spells steps [] rest key blank_nil hds hvalue hfields (by omega)
      simp only [List.append_assoc, List.cons_append, List.nil_append] at hread ⊢
      rw [value?_object hbs, hread]
      rfl

/-- Spelled items are read up to their closing bracket. -/
theorem items?_of_spells : ∀ (steps : Nat) (done : List Json) (rest : List Char)
    {bs cs ds : List Char} {item : Json} {items : List Json}, Blank bs → Spells cs item →
    SpellsItems ds items → cs.length + ds.length ≤ steps →
    items? steps done (bs ++ (cs ++ (ds ++ rest))) =
      some (.array (done.reverse ++ item :: items), rest)
  | 0, done, rest, bs, cs, ds, item, items, hbs, hitem, hitems, hsteps => by
    have hpos := hitems.length_pos
    omega
  | steps + 1, done, rest, bs, cs, ds, item, items, hbs, hitem, hitems, hsteps => by
    have hpos := hitems.length_pos
    have hvalue := value?_of_spells steps hitem (by omega) (hitems.ends rest)
    rw [← value?_blank hbs] at hvalue
    cases hitems with
    | close hblank =>
      simp only [List.append_assoc, List.singleton_append] at hvalue ⊢
      rw [items?_close hvalue hblank, List.reverse_cons]
    | next hblank hnext hitems =>
      simp only [List.length_cons, List.length_append] at hsteps
      simp only [List.append_assoc, List.cons_append] at hvalue ⊢
      rw [items?_next hvalue, items?_of_spells steps _ rest hblank hnext hitems (by omega)]
      simp

/-- Spelled fields are read up to their closing brace. -/
theorem fields?_of_spells : ∀ (steps : Nat) (done : List (String × Json)) (rest : List Char)
    {bs ds cs es : List Char} (key : String) {value : Json} {fields : List (String × Json)},
    Blank bs → Blank ds → Spells cs value → SpellsFields es fields →
    cs.length + es.length ≤ steps →
    fields? steps done (bs ++ (quoteChars key ++ ':' :: (ds ++ (cs ++ (es ++ rest))))) =
      some (.object (done.reverse ++ (key, value) :: fields), rest)
  | 0, done, rest, bs, ds, cs, es, key, value, fields, hbs, hds, hvalue, hfields, hsteps => by
    have hpos := hfields.length_pos
    omega
  | steps + 1, done, rest, bs, ds, cs, es, key, value, fields, hbs, hds, hvalue, hfields,
      hsteps => by
    have hpos := hfields.length_pos
    have hread := value?_of_spells steps hvalue (by omega) (hfields.ends rest)
    rw [← value?_blank hds] at hread
    rw [fields?_blank hbs]
    cases hfields with
    | close hblank =>
      simp only [List.append_assoc, List.singleton_append] at hread ⊢
      rw [fields?_close hread hblank, List.reverse_cons]
    | @next bs' ds' cs' es' key' value' fields' hblank hgap hnext hfields =>
      simp only [List.length_cons, List.length_append] at hsteps
      simp only [List.append_assoc, List.cons_append] at hread ⊢
      rw [fields?_next hread,
        fields?_of_spells steps _ rest key' hblank hgap hnext hfields (by omega)]
      simp

end

/-- A text that spells a value is read as the value. -/
theorem ofChars?_of_spells {cs : List Char} {j : Json} (h : Spells cs j) :
    ofChars? cs = some j := by
  have hread := value?_of_spells (cs.length + 1) h (by omega) ends_nil
  rw [List.append_nil] at hread
  rw [ofChars?, hread]
  rfl

end HybridGraph.Json
