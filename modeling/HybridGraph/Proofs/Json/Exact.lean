import HybridGraph.Proofs.Json.Rereading
import HybridGraph.Proofs.Number.Formats
/-!
# A faithful serializer

The reader of this library scales the digits of a number by one rounded power of ten and misses the
last bit of some floats.  `Serializer.exact` writes such a float as a string that holds its bits,
and marks the strings that look like one, so every finite float survives:

    exact.Faithful                                                                 (faithful_exact)

All else is written as the compact writer writes it:

    isPlain j = true → exact.write j = compact.write j                               (write_exact)
-/

namespace HybridGraph.Json

namespace Serializer

/-- The compact text of a double is read as the double. -/
def KeepsDouble (x : Float) : Prop := (parse? (Json.double x).compact).bind double? = some x

/-- The compact text of a single is read as the single. -/
def KeepsSingle (x : Float32) : Prop := (parse? (Json.single x).compact).bind single? = some x

instance (x : Float) : Decidable (KeepsDouble x) := inferInstanceAs (Decidable (_ = _))

instance (x : Float32) : Decidable (KeepsSingle x) := inferInstanceAs (Decidable (_ = _))

/-- The string that stands for the bits of a float. -/
def bitsText (kind : Char) (bits : Nat) : String :=
  String.ofList ('!' :: kind :: Nat.toDigits 10 bits)

/-- The string with one more mark if it has one. -/
def guardText (s : String) : String :=
  if s.toList.head? = some '!' then String.ofList ('!' :: s.toList) else s

/-- The value that a string stands for. -/
def revealText (s : String) : Json :=
  match s.toList with
  | '!' :: '!' :: cs => .string (String.ofList ('!' :: cs))
  | '!' :: 'd' :: digits => .double (.ofBits (.ofNat (Number.digitsValue digits)))
  | '!' :: 's' :: digits => .single (.ofBits (.ofNat (Number.digitsValue digits)))
  | _ => .string s

mutual

/-- The value with strings for the floats that would be missed, and strings that look like them
marked. -/
def disguise : Json → Json
  | .double x => if KeepsDouble x then .double x else .string (bitsText 'd' x.toBits.toNat)
  | .single x => if KeepsSingle x then .single x else .string (bitsText 's' x.toBits.toNat)
  | .string s => .string (guardText s)
  | .array items => .array (disguiseItems items)
  | .object fields => .object (disguiseFields fields)
  | other => other

/-- The items in disguise. -/
def disguiseItems : List Json → List Json
  | [] => []
  | item :: items => disguise item :: disguiseItems items

/-- The fields in disguise. -/
def disguiseFields : List (String × Json) → List (String × Json)
  | [] => []
  | (key, value) :: fields => (key, disguise value) :: disguiseFields fields

end

mutual

/-- The value with what its strings stand for. -/
def reveal : Json → Json
  | .string s => revealText s
  | .array items => .array (revealItems items)
  | .object fields => .object (revealFields fields)
  | other => other

/-- The items with what their strings stand for. -/
def revealItems : List Json → List Json
  | [] => []
  | item :: items => reveal item :: revealItems items

/-- The fields with what their strings stand for. -/
def revealFields : List (String × Json) → List (String × Json)
  | [] => []
  | (key, value) :: fields => (key, reveal value) :: revealFields fields

end

/-- Compact texts in which the floats that would be missed are strings. -/
def exact : Serializer where
  write j := (disguise j).compact
  read text := (parse? text).map reveal

theorem revealText_guardText (s : String) : revealText (guardText s) = .string s := by
  unfold guardText
  split
  · next hmark =>
    obtain ⟨cs, hcs⟩ := List.head?_eq_some_iff.mp hmark
    have hs : String.ofList ('!' :: cs) = s := by rw [← hcs, String.ofList_toList]
    rw [revealText, String.toList_ofList, hcs]
    exact congrArg Json.string hs
  · next hmark =>
    unfold revealText
    split
    · next heq => exact absurd (by rw [heq]; rfl) hmark
    · next heq => exact absurd (by rw [heq]; rfl) hmark
    · next heq => exact absurd (by rw [heq]; rfl) hmark
    · rfl

theorem revealText_bitsText_double (x : Float) :
    revealText (bitsText 'd' x.toBits.toNat) = .double x := by
  rw [revealText, bitsText, String.toList_ofList]
  show Json.double _ = _
  rw [Text.digitsValue_toDigits, UInt64.ofNat_toNat, Float.ofBits_toBits]

theorem revealText_bitsText_single (x : Float32) :
    revealText (bitsText 's' x.toBits.toNat) = .single x := by
  rw [revealText, bitsText, String.toList_ofList]
  show Json.single _ = _
  rw [Text.digitsValue_toDigits, UInt32.ofNat_toNat, Float32.ofBits_toBits]

theorem isScalar_disguise {j : Json} (h : j.IsScalar) : (disguise j).IsScalar := by
  cases j with
  | array => exact h.elim
  | object => exact h.elim
  | double x =>
    rw [disguise]
    split <;> trivial
  | single x =>
    rw [disguise]
    split <;> trivial
  | _ => trivial

mutual

/-- What is reread of a value is what is reread of its disguise. -/
theorem exists_reread_disguise (j : Json) {j' : Json} (h : exact.reread? j = some j') :
    ∃ t, compact.reread? (disguise j) = some t ∧ reveal t = j' := by
  have hscalar : j.IsScalar → ∃ t, compact.reread? (disguise j) = some t ∧ reveal t = j' := by
    intro hj
    rw [reread?_of_isScalar _ hj] at h
    rw [reread?_of_isScalar _ (isScalar_disguise hj)]
    exact Option.map_eq_some_iff.mp h
  cases j with
  | array items =>
    obtain ⟨items', hitems, rfl⟩ := reread?_array.mp h
    obtain ⟨ts, hts, hreveal⟩ := exists_rereadItems_disguise items hitems
    refine ⟨.array ts, ?_, ?_⟩
    · rw [disguise]
      exact reread?_array.mpr ⟨ts, hts, rfl⟩
    · rw [reveal, hreveal]
  | object fields =>
    obtain ⟨fields', hfields, rfl⟩ := reread?_object.mp h
    obtain ⟨ts, hts, hreveal⟩ := exists_rereadFields_disguise fields hfields
    refine ⟨.object ts, ?_, ?_⟩
    · rw [disguise]
      exact reread?_object.mpr ⟨ts, hts, rfl⟩
    · rw [reveal, hreveal]
  | _ => exact hscalar trivial

theorem exists_rereadItems_disguise (items : List Json) {items' : List Json}
    (h : exact.rereadItems? items = some items') :
    ∃ ts, compact.rereadItems? (disguiseItems items) = some ts ∧ revealItems ts = items' := by
  cases items with
  | nil =>
    obtain rfl := Option.some.inj h
    exact ⟨[], rfl, rfl⟩
  | cons item items =>
    obtain ⟨item', rest, hitem, hrest, rfl⟩ := rereadItems?_cons.mp h
    obtain ⟨t, ht, hreveal⟩ := exists_reread_disguise item hitem
    obtain ⟨ts, hts, hreveals⟩ := exists_rereadItems_disguise items hrest
    refine ⟨t :: ts, ?_, ?_⟩
    · rw [disguiseItems]
      exact rereadItems?_cons.mpr ⟨t, ts, ht, hts, rfl⟩
    · rw [revealItems, hreveal, hreveals]

theorem exists_rereadFields_disguise (fields : List (String × Json))
    {fields' : List (String × Json)} (h : exact.rereadFields? fields = some fields') :
    ∃ ts, compact.rereadFields? (disguiseFields fields) = some ts ∧ revealFields ts = fields' := by
  cases fields with
  | nil =>
    obtain rfl := Option.some.inj h
    exact ⟨[], rfl, rfl⟩
  | cons field fields =>
    obtain ⟨key, value⟩ := field
    obtain ⟨value', rest, hvalue, hrest, rfl⟩ := rereadFields?_cons.mp h
    obtain ⟨t, ht, hreveal⟩ := exists_reread_disguise value hvalue
    obtain ⟨ts, hts, hreveals⟩ := exists_rereadFields_disguise fields hrest
    refine ⟨(key, t) :: ts, ?_, ?_⟩
    · rw [disguiseFields]
      exact rereadFields?_cons.mpr ⟨t, ts, ht, hts, rfl⟩
    · rw [revealFields, hreveal, hreveals]

end

mutual

/-- No float of the value is missed and none of its strings has the mark. -/
def isPlain : Json → Bool
  | .double x => decide (KeepsDouble x)
  | .single x => decide (KeepsSingle x)
  | .string s => s.toList.head? != some '!'
  | .array items => isPlainItems items
  | .object fields => isPlainFields fields
  | _ => true

/-- No float of the items is missed and none of their strings has the mark. -/
def isPlainItems : List Json → Bool
  | [] => true
  | item :: items => isPlain item && isPlainItems items

/-- No float of the fields is missed and none of their strings has the mark. -/
def isPlainFields : List (String × Json) → Bool
  | [] => true
  | (_, value) :: fields => isPlain value && isPlainFields fields

end

mutual

theorem disguise_of_isPlain (j : Json) (h : isPlain j = true) : disguise j = j := by
  cases j with
  | double x => exact if_pos (of_decide_eq_true h)
  | single x => exact if_pos (of_decide_eq_true h)
  | string s =>
    rw [isPlain, bne_iff_ne] at h
    rw [disguise, guardText, if_neg h]
  | array items => rw [disguise, disguiseItems_of_isPlain items h]
  | object fields => rw [disguise, disguiseFields_of_isPlain fields h]
  | _ => rfl

theorem disguiseItems_of_isPlain (items : List Json) (h : isPlainItems items = true) :
    disguiseItems items = items := by
  cases items with
  | nil => rfl
  | cons item items =>
    obtain ⟨hitem, hitems⟩ := Bool.and_eq_true_iff.mp h
    rw [disguiseItems, disguise_of_isPlain item hitem, disguiseItems_of_isPlain items hitems]

theorem disguiseFields_of_isPlain (fields : List (String × Json))
    (h : isPlainFields fields = true) : disguiseFields fields = fields := by
  cases fields with
  | nil => rfl
  | cons field fields =>
    obtain ⟨key, value⟩ := field
    obtain ⟨hvalue, hfields⟩ := Bool.and_eq_true_iff.mp h
    rw [disguiseFields, disguise_of_isPlain value hvalue, disguiseFields_of_isPlain fields hfields]

end

theorem isPlainItems_map {α : Type} {encode : α → Json} (h : ∀ a, isPlain (encode a) = true)
    (items : List α) : isPlainItems (items.map encode) = true := by
  induction items with
  | nil => rfl
  | cons a items ih =>
    rw [List.map_cons, isPlainItems, h, ih]
    rfl

/-- A plain value is written as the compact writer writes it. -/
theorem write_exact {j : Json} (h : isPlain j = true) : exact.write j = compact.write j :=
  congrArg Json.compact (disguise_of_isPlain j h)

/-- What is read of a scalar is what the text of its disguise stands for. -/
theorem read_exact {j j' t : Json} (hdisguise : disguise j = j') (hj : j'.IsScalar)
    (h : parse? (scalarText j') = some t) : exact.read (exact.write j) = some (reveal t) := by
  show (parse? (disguise j).compact).map reveal = _
  rw [hdisguise, compact_of_isScalar hj, h, Option.map_some]

/-- A number that is not in disguise is read as itself. -/
theorem read_exact_number {α : Type} {decode : Json → Option α} {j : Json} {a : α}
    (hdisguise : disguise j = j) (h : (parse? j.compact).bind decode = some a)
    (hstring : ∀ s, decode (.string s) = none) (harray : ∀ items, decode (.array items) = none)
    (hobject : ∀ fields, decode (.object fields) = none) :
    (exact.read (exact.write j)).bind decode = some a := by
  obtain ⟨t, ht, hdecode⟩ := Option.bind_eq_some_iff.mp h
  have hreveal : reveal t = t := by
    cases t with
    | string s => rw [hstring] at hdecode; cases hdecode
    | array items => rw [harray] at hdecode; cases hdecode
    | object fields => rw [hobject] at hdecode; cases hdecode
    | _ => rfl
  show ((parse? (disguise j).compact).map reveal).bind decode = some a
  rw [hdisguise, ht, Option.map_some, hreveal]
  exact hdecode

theorem faithful_exact : exact.Faithful where
  parts := by
    intro j j' _ h
    obtain ⟨t, ht, rfl⟩ := exists_reread_disguise j h
    show (parse? (disguise j).compact).map reveal = _
    rw [parse?_compact_of_reread ht, Option.map_some]
  null := read_exact (j := .null) rfl trivial parse?_null
  bool b := read_exact (j := .bool b) rfl trivial (parse?_bool b)
  string s := by
    rw [read_exact (j := .string s) rfl trivial (parse?_string _)]
    exact congrArg some (revealText_guardText s)
  int n hlow hhigh := read_exact (j := .int n) rfl trivial (parse?_int hlow hhigh)
  double x hx := by
    by_cases hkeeps : KeepsDouble x
    · exact read_exact_number (by rw [disguise, if_pos hkeeps]) hkeeps (fun _ => rfl)
        (fun _ => rfl) fun _ => rfl
    · have hdisguise : disguise (.double x) = .string (bitsText 'd' x.toBits.toNat) := by
        rw [disguise, if_neg hkeeps]
      rw [read_exact hdisguise trivial (parse?_string _), reveal, revealText_bitsText_double]
      exact if_pos hx
  single x hx := by
    by_cases hkeeps : KeepsSingle x
    · exact read_exact_number (by rw [disguise, if_pos hkeeps]) hkeeps (fun _ => rfl)
        (fun _ => rfl) fun _ => rfl
    · have hdisguise : disguise (.single x) = .string (bitsText 's' x.toBits.toNat) := by
        rw [disguise, if_neg hkeeps]
      rw [read_exact hdisguise trivial (parse?_string _), reveal, revealText_bitsText_single]
      exact if_pos hx

end Serializer

end HybridGraph.Json
