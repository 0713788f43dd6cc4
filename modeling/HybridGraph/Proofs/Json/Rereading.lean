import HybridGraph.Json.Decode
import HybridGraph.Proofs.Json.Spelled
/-!
# Reading what was written

`S.reread? j` is the value `j` with what a serializer reads from the text of each of its scalars, if
they can be read.  A serializer is compositional if it reads the text of a value as the reread
value, as deep as records nest, and takes null, truth values, strings and the integers of machine
words as they are; it is faithful if finite floats survive too:

    S.Compositional → j.depth ≤ Serializer.maxDepth → S.reread? j = some j' →
      S.read (S.write j) = some j'                                           (Compositional.parts)

Both writers of this library spell the reread value, so both are compositional
(`compositional_compact`, `compositional_pretty`).  They are not faithful, because the reader scales
the digits of a number by one rounded power of ten and misses the last bit of some floats.  The
compact text is also read without going through strings (`parse?_compact`): `chars` are its
characters in the order of the value.
-/

namespace HybridGraph.Json

/-! ## Serializers -/

namespace Serializer

variable (S : Serializer)

mutual

/-- The value with what is read from the text of each scalar. -/
def reread? : Json → Option Json
  | .array items => (rereadItems? items).map .array
  | .object fields => (rereadFields? fields).map .object
  | scalar => S.read (S.write scalar)

/-- The items with what is read from the text of each scalar. -/
def rereadItems? : List Json → Option (List Json)
  | [] => some []
  | item :: items => do return (← reread? item) :: (← rereadItems? items)

/-- The fields with what is read from the text of each scalar. -/
def rereadFields? : List (String × Json) → Option (List (String × Json))
  | [] => some []
  | (key, value) :: fields => do return (key, ← reread? value) :: (← rereadFields? fields)

end

variable {S}

theorem reread?_array {items : List Json} {j : Json} :
    S.reread? (.array items) = some j ↔ ∃ items', S.rereadItems? items = some items' ∧
      .array items' = j := by
  rw [reread?, Option.map_eq_some_iff]

theorem reread?_object {fields : List (String × Json)} {j : Json} :
    S.reread? (.object fields) = some j ↔ ∃ fields', S.rereadFields? fields = some fields' ∧
      .object fields' = j := by
  rw [reread?, Option.map_eq_some_iff]

theorem rereadItems?_cons {item : Json} {items items' : List Json} :
    S.rereadItems? (item :: items) = some items' ↔ ∃ item' rest, S.reread? item = some item' ∧
      S.rereadItems? items = some rest ∧ item' :: rest = items' := by
  simp [rereadItems?, Option.bind_eq_some_iff]

theorem rereadFields?_cons {key : String} {value : Json} {fields fields' : List (String × Json)} :
    S.rereadFields? ((key, value) :: fields) = some fields' ↔ ∃ value' rest,
      S.reread? value = some value' ∧ S.rereadFields? fields = some rest ∧
        (key, value') :: rest = fields' := by
  simp [rereadFields?, Option.bind_eq_some_iff]

end Serializer

mutual

/-- How deep lists and objects are nested. -/
def depth : Json → Nat
  | .array items => itemsDepth items + 1
  | .object fields => fieldsDepth fields + 1
  | _ => 0

/-- How deep the items of a list are nested. -/
def itemsDepth : List Json → Nat
  | [] => 0
  | item :: items => max (depth item) (itemsDepth items)

/-- How deep the values of an object are nested. -/
def fieldsDepth : List (String × Json) → Nat
  | [] => 0
  | (_, value) :: fields => max (depth value) (fieldsDepth fields)

end

namespace Serializer

/-- Readers refuse values that are nested deeper. -/
def maxDepth : Nat := 127

/-- Lists and objects survive their text if their scalars do, and null, truth values, strings and
the integers of machine words do. -/
structure Compositional (S : Serializer) : Prop where
  parts : ∀ {j j'}, j.depth ≤ maxDepth → S.reread? j = some j' → S.read (S.write j) = some j'
  null : S.read (S.write .null) = some .null
  bool : ∀ b, S.read (S.write (.bool b)) = some (.bool b)
  string : ∀ s, S.read (S.write (.string s)) = some (.string s)
  int : ∀ n : Int, -Number.twoPow 63 ≤ n → n < Number.twoPow 64 →
    S.read (S.write (.int n)) = some (.int n)

/-- Finite doubles and singles survive their text too, where they are asked for. -/
structure Faithful (S : Serializer) : Prop extends Compositional S where
  double : ∀ x : Float, x.isFinite → (S.read (S.write (.double x))).bind double? = some x
  single : ∀ x : Float32, x.isFinite → (S.read (S.write (.single x))).bind single? = some x

end Serializer

/-! ## The scalars of this library -/

/-- The value is neither a list nor an object. -/
def IsScalar : Json → Prop
  | .array _ | .object _ => False
  | _ => True

theorem Serializer.reread?_of_isScalar (S : Serializer) {j : Json} (h : j.IsScalar) :
    S.reread? j = S.read (S.write j) := by
  cases j with
  | array => exact h.elim
  | object => exact h.elim
  | _ => simp [reread?]

theorem compact_of_isScalar {j : Json} (h : j.IsScalar) : j.compact = scalarText j := by
  cases j with
  | array => exact h.elim
  | object => exact h.elim
  | _ => simp [compact, writeCompact]

theorem pretty_of_isScalar {j : Json} (h : j.IsScalar) : j.pretty = scalarText j := by
  cases j with
  | array => exact h.elim
  | object => exact h.elim
  | _ => simp [pretty, writePretty]

theorem parse?_null : parse? (scalarText .null) = some .null := rfl

theorem parse?_bool (b : Bool) : parse? (scalarText (.bool b)) = some (.bool b) := by
  cases b <;> rfl

theorem parse?_string (s : String) : parse? (scalarText (.string s)) = some (.string s) := by
  show ofChars? (quote s).toList = _
  rw [toList_quote]
  exact ofChars?_of_spells (.string s)

theorem parse?_int {n : Int} (hlow : -Number.twoPow 63 ≤ n) (hhigh : n < Number.twoPow 64) :
    parse? (scalarText (.int n)) = some (.int n) :=
  ofChars?_of_spells (.number (numeral_toString hlow hhigh))

theorem spells_of_ofChars? {cs : List Char} {j j' : Json} (h : Spells cs j)
    (hread : ofChars? cs = some j') : Spells cs j' := by
  rw [ofChars?_of_spells h] at hread
  exact Option.some.inj hread ▸ h

theorem spells_layout {finite : Bool} {layout : Number.FloatLayout} {f : Number.BinaryFormat}
    {u : Number.Unpacked} {j : Json}
    (h : ofChars? (if finite then String.ofList (layout.chars f u) else "null").toList = some j) :
    Spells (if finite then String.ofList (layout.chars f u) else "null").toList j := by
  cases finite with
  | false =>
    rw [if_neg Bool.false_ne_true] at h ⊢
    exact spells_of_ofChars? .null h
  | true =>
    rw [if_pos rfl, String.toList_ofList] at h ⊢
    exact .number (numeral_chars h)

/-- What is read from the text of a scalar is spelled by it. -/
theorem spells_scalar {j j' : Json} (h : parse? (scalarText j) = some j') :
    Spells (scalarText j).toList j' := by
  have hread : ofChars? (scalarText j).toList = some j' := h
  cases j with
  | null => exact spells_of_ofChars? .null hread
  | bool b => exact spells_of_ofChars? (.bool b) hread
  | int n => exact .number (numeral_of_ofChars? (numerals_toString n) hread)
  | double x => exact spells_layout hread
  | single x => exact spells_layout hread
  | string s =>
    rw [scalarText, toList_quote] at hread ⊢
    exact spells_of_ofChars? (.string s) hread
  | array items =>
    rw [scalarText] at hread ⊢
    exact spells_of_ofChars? .emptyArray hread
  | object fields =>
    rw [scalarText] at hread ⊢
    exact spells_of_ofChars? .emptyObject hread

/-- A serializer that writes scalars as this library does, and reads its texts as `parse?` does. -/
structure Serializer.Plain (S : Serializer) : Prop where
  read : S.read = parse?
  scalar : ∀ j, j.IsScalar → S.write j = scalarText j

namespace Serializer.Plain

variable {S : Serializer} {j' : Json}

theorem spells_scalar (hS : S.Plain) (j : Json) (hj : j.IsScalar) (h : S.reread? j = some j') :
    Spells (scalarText j).toList j' := by
  rw [reread?_of_isScalar S hj, hS.read, hS.scalar j hj] at h
  exact Json.spells_scalar h

/-- Such a serializer is compositional if its texts spell what is reread. -/
theorem compositional (hS : S.Plain)
    (hspells : ∀ j j', S.reread? j = some j' → Spells (S.write j).toList j') :
    S.Compositional where
  parts {j j'} _ h := by
    rw [hS.read]
    exact ofChars?_of_spells (hspells j j' h)
  null := by rw [hS.read, hS.scalar .null trivial, parse?_null]
  bool b := by rw [hS.read, hS.scalar (.bool b) trivial, parse?_bool]
  string s := by rw [hS.read, hS.scalar (.string s) trivial, parse?_string]
  int n hlow hhigh := by rw [hS.read, hS.scalar (.int n) trivial, parse?_int hlow hhigh]

end Serializer.Plain

/-! ## The compact text -/

mutual

/-- The characters of the compact text of a value. -/
def chars : Json → List Char
  | .array [] => ['[', ']']
  | .array (item :: items) => '[' :: chars item ++ itemChars items
  | .object [] => ['\x7b', '\x7d']
  | .object ((key, value) :: fields) =>
    '\x7b' :: quoteChars key ++ ':' :: chars value ++ fieldChars fields
  | .string s => quoteChars s
  | scalar => (scalarText scalar).toList

/-- The characters of the further items of a list and its closing bracket. -/
def itemChars : List Json → List Char
  | [] => [']']
  | item :: items => ',' :: chars item ++ itemChars items

/-- The characters of the further fields of an object and its closing brace. -/
def fieldChars : List (String × Json) → List Char
  | [] => ['\x7d']
  | (key, value) :: fields => ',' :: quoteChars key ++ ':' :: chars value ++ fieldChars fields

end

mutual

theorem toList_writeCompact (out : String) (j : Json) :
    (writeCompact out j).toList = out.toList ++ chars j := by
  cases j with
  | array items =>
    cases items with
    | nil => simp [writeCompact, chars]
    | cons item items =>
      rw [writeCompact, toList_writeCompactItems, toList_writeCompact, String.toList_push, chars]
      simp
  | object fields =>
    cases fields with
    | nil => simp [writeCompact, chars]
    | cons field fields =>
      obtain ⟨key, value⟩ := field
      rw [writeCompact, toList_writeCompactFields, toList_writeCompact, String.toList_append,
        String.toList_append, String.toList_push, toList_quote, chars]
      simp
  | string s => simp [writeCompact, chars, scalarText, toList_quote]
  | null => simp [writeCompact, chars]
  | bool b => simp [writeCompact, chars]
  | int n => simp [writeCompact, chars]
  | double x => simp [writeCompact, chars]
  | single x => simp [writeCompact, chars]

theorem toList_writeCompactItems (out : String) (items : List Json) :
    (writeCompactItems out items).toList = out.toList ++ itemChars items := by
  cases items with
  | nil => simp [writeCompactItems, itemChars]
  | cons item items =>
    rw [writeCompactItems, toList_writeCompactItems, toList_writeCompact, String.toList_push,
      itemChars]
    simp

theorem toList_writeCompactFields (out : String) (fields : List (String × Json)) :
    (writeCompactFields out fields).toList = out.toList ++ fieldChars fields := by
  cases fields with
  | nil => simp [writeCompactFields, fieldChars]
  | cons field fields =>
    obtain ⟨key, value⟩ := field
    rw [writeCompactFields, toList_writeCompactFields, toList_writeCompact, String.toList_append,
      String.toList_append, String.toList_push, toList_quote, fieldChars]
    simp

end

/-- The compact text of a value has its characters. -/
theorem toList_compact (j : Json) : j.compact.toList = j.chars := by
  rw [compact, toList_writeCompact, String.toList_empty, List.nil_append]

/-- What is read from a compact text. -/
theorem parse?_compact (j : Json) : parse? j.compact = ofChars? j.chars := by
  rw [← toList_compact]
  rfl

theorem plain_compact : Serializer.compact.Plain := ⟨rfl, fun _ => compact_of_isScalar⟩

mutual

theorem spells_chars (j : Json) {j' : Json} (h : Serializer.compact.reread? j = some j') :
    Spells j.chars j' := by
  cases j with
  | array items =>
    obtain ⟨items', hitems, rfl⟩ := Serializer.reread?_array.mp h
    cases items with
    | nil =>
      obtain rfl := Option.some.inj hitems
      exact .emptyArray
    | cons item items =>
      obtain ⟨item', rest, hitem, hrest, rfl⟩ := Serializer.rereadItems?_cons.mp hitems
      rw [chars]
      exact .array blank_nil (spells_chars item hitem) (spells_itemChars items hrest)
  | object fields =>
    obtain ⟨fields', hfields, rfl⟩ := Serializer.reread?_object.mp h
    cases fields with
    | nil =>
      obtain rfl := Option.some.inj hfields
      exact .emptyObject
    | cons field fields =>
      obtain ⟨key, value⟩ := field
      obtain ⟨value', rest, hvalue, hrest, rfl⟩ := Serializer.rereadFields?_cons.mp hfields
      have hspelled : Spells _ (.object ((key, value') :: rest)) :=
        .object blank_nil blank_nil (spells_chars value hvalue) (spells_fieldChars fields hrest)
      simpa [chars] using hspelled
  | string s =>
    rw [chars, ← toList_quote]
    exact plain_compact.spells_scalar (.string s) trivial h
  | _ => exact plain_compact.spells_scalar _ trivial h

theorem spells_itemChars (items : List Json) {items' : List Json}
    (h : Serializer.compact.rereadItems? items = some items') :
    SpellsItems (itemChars items) items' := by
  cases items with
  | nil =>
    obtain rfl := Option.some.inj h
    exact .close blank_nil
  | cons item items =>
    obtain ⟨item', rest, hitem, hrest, rfl⟩ := Serializer.rereadItems?_cons.mp h
    rw [itemChars]
    exact .next blank_nil (spells_chars item hitem) (spells_itemChars items hrest)

theorem spells_fieldChars (fields : List (String × Json)) {fields' : List (String × Json)}
    (h : Serializer.compact.rereadFields? fields = some fields') :
    SpellsFields (fieldChars fields) fields' := by
  cases fields with
  | nil =>
    obtain rfl := Option.some.inj h
    exact .close blank_nil
  | cons field fields =>
    obtain ⟨key, value⟩ := field
    obtain ⟨value', rest, hvalue, hrest, rfl⟩ := Serializer.rereadFields?_cons.mp h
    have hspelled : SpellsFields _ ((key, value') :: rest) :=
      .next blank_nil blank_nil (spells_chars value hvalue) (spells_fieldChars fields hrest)
    simpa [fieldChars] using hspelled

end

theorem spells_compact (j : Json) {j' : Json} (h : Serializer.compact.reread? j = some j') :
    Spells j.compact.toList j' := by
  rw [toList_compact]
  exact spells_chars j h

/-- The compact text of a value is read as its reread value, however deep it is nested. -/
theorem parse?_compact_of_reread {j j' : Json} (h : Serializer.compact.reread? j = some j') :
    parse? j.compact = some j' := ofChars?_of_spells (spells_compact j h)

theorem compositional_compact : Serializer.compact.Compositional :=
  plain_compact.compositional fun j _ h => spells_compact j h

/-! ## The indented text -/

theorem plain_pretty : Serializer.pretty.Plain := ⟨rfl, fun _ => pretty_of_isScalar⟩

theorem blank_newline (level : Nat) : Blank (newline level).toList := by
  rw [newline, String.pushn_eq_repeat_push]
  induction 2 * level with
  | zero =>
    intro c hc
    obtain rfl := List.mem_singleton.mp hc
    rfl
  | succ n ih =>
    rw [Nat.repeat, String.toList_push]
    refine List.forall_mem_append.mpr ⟨ih, fun c hc => ?_⟩
    obtain rfl := List.mem_singleton.mp hc
    rfl

theorem blank_space : Blank [' '] := by
  intro c hc
  obtain rfl := List.mem_singleton.mp hc
  rfl

theorem exists_writePretty_scalar (level : Nat) (out : String) (j : Json) (hj : j.IsScalar)
    {j' : Json} (h : Serializer.pretty.reread? j = some j') :
    ∃ cs, (writePretty level out j).toList = out.toList ++ cs ∧ Spells cs j' := by
  refine ⟨(scalarText j).toList, ?_, plain_pretty.spells_scalar j hj h⟩
  cases j with
  | array => exact hj.elim
  | object => exact hj.elim
  | _ => simp [writePretty]

mutual

theorem exists_writePretty (level : Nat) (out : String) (j : Json) {j' : Json}
    (h : Serializer.pretty.reread? j = some j') :
    ∃ cs, (writePretty level out j).toList = out.toList ++ cs ∧ Spells cs j' := by
  cases j with
  | array items =>
    obtain ⟨items', hitems, rfl⟩ := Serializer.reread?_array.mp h
    cases items with
    | nil =>
      obtain rfl := Option.some.inj hitems
      exact ⟨['[', ']'], by simp [writePretty], .emptyArray⟩
    | cons item items =>
      obtain ⟨item', rest, hitem, hrest, rfl⟩ := Serializer.rereadItems?_cons.mp hitems
      rw [writePretty]
      obtain ⟨cs, hcs, hspelled⟩ :=
        exists_writePretty (level + 1) (out ++ "[" ++ newline (level + 1)) item hitem
      obtain ⟨ds, hds, hmore⟩ := exists_writePrettyItems level
        (writePretty (level + 1) (out ++ "[" ++ newline (level + 1)) item) items hrest
      exact ⟨_, by simp [hds, hcs], .array (blank_newline (level + 1)) hspelled hmore⟩
  | object fields =>
    obtain ⟨fields', hfields, rfl⟩ := Serializer.reread?_object.mp h
    cases fields with
    | nil =>
      obtain rfl := Option.some.inj hfields
      exact ⟨['\x7b', '\x7d'], by simp [writePretty], .emptyObject⟩
    | cons field fields =>
      obtain ⟨key, value⟩ := field
      obtain ⟨value', rest, hvalue, hrest, rfl⟩ := Serializer.rereadFields?_cons.mp hfields
      rw [writePretty]
      obtain ⟨cs, hcs, hspelled⟩ := exists_writePretty (level + 1)
        (out ++ "\x7b" ++ newline (level + 1) ++ quote key ++ ": ") value hvalue
      obtain ⟨ds, hds, hmore⟩ := exists_writePrettyFields level (writePretty (level + 1)
        (out ++ "\x7b" ++ newline (level + 1) ++ quote key ++ ": ") value) fields hrest
      exact ⟨_, by simp [hds, hcs, toList_quote],
        .object (blank_newline (level + 1)) blank_space hspelled hmore⟩
  | _ => exact exists_writePretty_scalar level out _ (by trivial) h

theorem exists_writePrettyItems (level : Nat) (out : String) (items : List Json)
    {items' : List Json} (h : Serializer.pretty.rereadItems? items = some items') :
    ∃ cs, (writePrettyItems level out items).toList = out.toList ++ cs ∧ SpellsItems cs items' := by
  cases items with
  | nil =>
    obtain rfl := Option.some.inj h
    exact ⟨(newline level).toList ++ [']'], by simp [writePrettyItems],
      .close (blank_newline level)⟩
  | cons item items =>
    obtain ⟨item', rest, hitem, hrest, rfl⟩ := Serializer.rereadItems?_cons.mp h
    rw [writePrettyItems]
    obtain ⟨cs, hcs, hspelled⟩ :=
      exists_writePretty (level + 1) (out ++ "," ++ newline (level + 1)) item hitem
    obtain ⟨ds, hds, hmore⟩ := exists_writePrettyItems level
      (writePretty (level + 1) (out ++ "," ++ newline (level + 1)) item) items hrest
    exact ⟨_, by simp [hds, hcs], .next (blank_newline (level + 1)) hspelled hmore⟩

theorem exists_writePrettyFields (level : Nat) (out : String) (fields : List (String × Json))
    {fields' : List (String × Json)} (h : Serializer.pretty.rereadFields? fields = some fields') :
    ∃ cs, (writePrettyFields level out fields).toList = out.toList ++ cs ∧
      SpellsFields cs fields' := by
  cases fields with
  | nil =>
    obtain rfl := Option.some.inj h
    exact ⟨(newline level).toList ++ ['\x7d'], by simp [writePrettyFields],
      .close (blank_newline level)⟩
  | cons field fields =>
    obtain ⟨key, value⟩ := field
    obtain ⟨value', rest, hvalue, hrest, rfl⟩ := Serializer.rereadFields?_cons.mp h
    rw [writePrettyFields]
    obtain ⟨cs, hcs, hspelled⟩ := exists_writePretty (level + 1)
      (out ++ "," ++ newline (level + 1) ++ quote key ++ ": ") value hvalue
    obtain ⟨ds, hds, hmore⟩ := exists_writePrettyFields level (writePretty (level + 1)
      (out ++ "," ++ newline (level + 1) ++ quote key ++ ": ") value) fields hrest
    exact ⟨_, by simp [hds, hcs, toList_quote],
      .next (blank_newline (level + 1)) blank_space hspelled hmore⟩

end

/-- The indented text of a value is read as its reread value. -/
theorem compositional_pretty : Serializer.pretty.Compositional :=
  plain_pretty.compositional fun j j' h => by
    obtain ⟨cs, hcs, hspelled⟩ := exists_writePretty 0 "" j h
    rw [String.toList_empty, List.nil_append] at hcs
    show Spells (writePretty 0 "" j).toList j'
    rw [hcs]
    exact hspelled

end HybridGraph.Json
