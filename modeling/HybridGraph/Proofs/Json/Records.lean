import HybridGraph.Proofs.Json.Rereading
import HybridGraph.Text.Literal
/-!
# Records that are recovered from their text

`S.Recovers decode j a` says that decoding gives `a` once a serializer has written and read the
scalars of the record `j`.  Under a faithful serializer numbers of a machine word, finite floats,
truth values and strings are recovered, and so are lists, optional values and tagged values of what
is recovered:

    n ≤ Text.maxWord → S.Recovers size? (.nat n) n                                 (recovers_size)
    x.isFinite = true → S.Recovers double? (.double x) x                         (recovers_double)
    (∀ a ∈ items, S.Recovers decode (encode a) a) →
      S.Recovers (list? decode) (list encode items) items                          (recovers_list)

A record that is recovered and not nested too deep comes back from its text:

    S.Recovers decode j a → j.depth ≤ Serializer.maxDepth →
      (S.read (S.write j)).bind decode = some a                                     (Recovers.read)
-/

namespace HybridGraph.Json

open Serializer

variable {α β : Type} {decode : Json → Option α} {encode : α → Json} {j : Json} {a : α}
  {S : Serializer}

/-- Decoding gives `a` once the scalars of the record were written and read. -/
def Serializer.Recovers (S : Serializer) (decode : Json → Option α) (j : Json) (a : α) : Prop :=
  ∃ j', S.reread? j = some j' ∧ decode j' = some a

theorem Serializer.Recovers.read (h : S.Recovers decode j a) (hS : S.Faithful)
    (hdepth : j.depth ≤ maxDepth) : (S.read (S.write j)).bind decode = some a := by
  obtain ⟨j', hread, hdecode⟩ := h
  rw [hS.parts hdepth hread, Option.bind_some, hdecode]

theorem Serializer.Recovers.map (f : α → β) (h : S.Recovers decode j a) :
    S.Recovers (fun j => (decode j).map f) j (f a) := by
  obtain ⟨j', hread, hdecode⟩ := h
  exact ⟨j', hread, Option.map_eq_some_iff.mpr ⟨a, hdecode, rfl⟩⟩

/-! ## Scalars -/

theorem Serializer.Recovers.of_scalar (hj : j.IsScalar)
    (h : (S.read (S.write j)).bind decode = some a) : S.Recovers decode j a := by
  obtain ⟨j', hread, hdecode⟩ := Option.bind_eq_some_iff.mp h
  exact ⟨j', (S.reread?_of_isScalar hj).trans hread, hdecode⟩

section

variable (hS : S.Faithful)
include hS

theorem reread?_null : S.reread? .null = some .null :=
  (S.reread?_of_isScalar (j := .null) trivial).trans hS.null

theorem reread?_string (s : String) : S.reread? (.string s) = some (.string s) :=
  (S.reread?_of_isScalar (j := .string s) trivial).trans (hS.string s)

theorem recovers_bool (b : Bool) : S.Recovers bool? (.bool b) b :=
  .of_scalar trivial (by rw [hS.bool b]; rfl)

theorem recovers_string (s : String) : S.Recovers string? (.string s) s :=
  .of_scalar trivial (by rw [hS.string s]; rfl)

theorem recovers_nat {n bound : Nat} (h : n ≤ bound) (hbound : bound ≤ Text.maxWord) :
    S.Recovers (nat? bound) (.nat n) n := by
  have hpow : Text.maxWord < Number.twoPow 64 := by decide
  have hint : S.read (S.write (.int n)) = some (.int n) := hS.int n (by omega) (by omega)
  refine .of_scalar (j := .int n) trivial ?_
  rw [hint]
  simp [nat?, h]

theorem recovers_size {n : Nat} (h : n ≤ Text.maxWord) : S.Recovers size? (.nat n) n :=
  recovers_nat hS h (Nat.le_refl _)

theorem recovers_index {n : Nat} (h : n < Number.twoPow 32) : S.Recovers index? (.nat n) n :=
  recovers_nat hS (Nat.le_sub_one_of_lt h) (by decide)

theorem recovers_byte (b : UInt8) : S.Recovers byte? (.nat b.toNat) b := by
  have hbyte := (recovers_nat hS (Nat.le_of_lt_succ b.toNat_lt) (by decide)).map UInt8.ofNat
  rwa [UInt8.ofNat_toNat] at hbyte

theorem recovers_int {bits : Nat} {n : Int} (hbits : bits ≤ 64)
    (hlow : -Number.twoPow (bits - 1) ≤ n) (hhigh : n < Number.twoPow (bits - 1)) :
    S.Recovers (int? bits) (.int n) n := by
  have hpow : Number.twoPow (bits - 1) ≤ Number.twoPow 63 :=
    Nat.pow_le_pow_right (by decide) (by omega)
  have hword : Number.twoPow 63 < Number.twoPow 64 := by decide
  refine .of_scalar (j := .int n) trivial ?_
  rw [hS.int n (by omega) (by omega)]
  simp [int?, hlow, hhigh]

theorem recovers_word {n : Int} (h : Text.minInt ≤ n ∧ n ≤ Text.maxInt) :
    S.Recovers (int? 64) (.int n) n :=
  recovers_int hS (Nat.le_refl 64) h.1 (Int.lt_of_le_sub_one h.2)

theorem recovers_double {x : Float} (h : x.isFinite = true) : S.Recovers double? (.double x) x :=
  .of_scalar (j := .double x) trivial (hS.double x h)

theorem recovers_single {x : Float32} (h : x.isFinite = true) :
    S.Recovers single? (.single x) x :=
  .of_scalar (j := .single x) trivial (hS.single x h)

end

/-! ## Depths -/

@[simp]
theorem depth_tagged (tag : String) (j : Json) : (tagged tag j).depth = j.depth + 1 := by
  simp [tagged, depth, fieldsDepth]

theorem depth_list_le {items : List α} {n : Nat} (h : ∀ a ∈ items, (encode a).depth ≤ n) :
    (list encode items).depth ≤ n + 1 := by
  rw [list, depth, Nat.add_le_add_iff_right]
  induction items with
  | nil => exact Nat.zero_le n
  | cons a items ih =>
    obtain ⟨ha, hrest⟩ := List.forall_mem_cons.mp h
    exact Nat.max_le.mpr ⟨ha, ih hrest⟩

theorem depth_option_le {value : Option α} {n : Nat} (h : ∀ a ∈ value, (encode a).depth ≤ n) :
    (option encode value).depth ≤ n := by
  cases value with
  | none => exact Nat.zero_le n
  | some a => exact h a rfl

theorem depth_nats_le (ns : List Nat) : (nats ns).depth ≤ 1 :=
  depth_list_le fun _ _ => Nat.le_refl 0

theorem depth_ints_le (ns : List Int) : (ints ns).depth ≤ 1 :=
  depth_list_le fun _ _ => Nat.le_refl 0

/-! ## Lists and optional values -/

theorem recovers_list_map {items : List β} {encode : β → Json} {view : β → α}
    (h : ∀ b ∈ items, S.Recovers decode (encode b) (view b)) :
    S.Recovers (list? decode) (list encode items) (items.map view) := by
  have hitems : ∃ items', S.rereadItems? (items.map encode) = some items' ∧
      items'.mapM decode = some (items.map view) := by
    induction items with
    | nil => exact ⟨[], rfl, rfl⟩
    | cons b items ih =>
      obtain ⟨⟨j', hread, hdecode⟩, hrest⟩ := List.forall_mem_cons.mp h
      obtain ⟨items', hreads, hdecodes⟩ := ih hrest
      refine ⟨j' :: items', rereadItems?_cons.mpr ⟨j', items', hread, hreads, rfl⟩, ?_⟩
      simp [List.mapM_cons, hdecode, hdecodes]
  obtain ⟨items', hreads, hdecodes⟩ := hitems
  exact ⟨.array items', reread?_array.mpr ⟨items', hreads, rfl⟩, hdecodes⟩

theorem recovers_list {items : List α} (h : ∀ a ∈ items, S.Recovers decode (encode a) a) :
    S.Recovers (list? decode) (list encode items) items := by
  have hlist : S.Recovers (list? decode) (list encode items) (items.map id) := recovers_list_map h
  rwa [List.map_id] at hlist

theorem recovers_words (hS : S.Faithful) {ns : List Int}
    (h : ∀ n ∈ ns, Text.minInt ≤ n ∧ n ≤ Text.maxInt) :
    S.Recovers (list? (int? 64)) (.ints ns) ns :=
  recovers_list fun n hn => recovers_word hS (h n hn)

theorem recovers_option (hS : S.Faithful) {value : Option α} (hnull : decode .null = none)
    (h : ∀ a ∈ value, S.Recovers decode (encode a) a) :
    S.Recovers (option? decode) (option encode value) value := by
  cases value with
  | none => exact ⟨.null, reread?_null hS, rfl⟩
  | some a =>
    obtain ⟨j', hread, hdecode⟩ := h a rfl
    refine ⟨j', hread, ?_⟩
    unfold option?
    split
    · rw [hnull] at hdecode
      cases hdecode
    · rw [hdecode, Option.map_some]

/-! ## Records and variants -/

/-- An object that has exactly the fields of a record, in their order, is read as the record. -/
@[simp]
theorem record?_fields {names : List String} {fields : List (String × Json)}
    (hnames : fields.map Prod.fst = names) (hnodup : names.Nodup) :
    record? names (.object fields) = some ⟨fields, true⟩ := by
  subst hnames
  have hknown : fields.filter (fun field => (fields.map Prod.fst).contains field.1) = fields :=
    List.filter_eq_self.mpr fun field hf => List.contains_iff_mem.mpr (List.mem_map_of_mem hf)
  unfold record?
  dsimp only
  rw [hknown, if_pos hnodup]

namespace Record

variable {name other : String} {fields : List (String × Json)} {named : Bool}

theorem lookup_cons_of_ne (h : name ≠ other) :
    ((other, j) :: fields).lookup name = fields.lookup name := by
  rw [List.lookup_cons, beq_eq_false_iff_ne.mpr h]

@[simp]
theorem required_cons_self :
    (⟨(name, j) :: fields, named⟩ : Record).required name decode = decode j := by
  rw [required, List.lookup_cons_self, Option.bind_some]

@[simp]
theorem required_cons_of_ne (h : name ≠ other) :
    (⟨(other, j) :: fields, named⟩ : Record).required name decode =
      (⟨fields, named⟩ : Record).required name decode := by
  rw [required, lookup_cons_of_ne h, required]

@[simp]
theorem optional_cons_self :
    (⟨(name, j) :: fields, named⟩ : Record).optional name decode = option? decode j := by
  rw [optional, List.lookup_cons_self]

@[simp]
theorem optional_cons_of_ne (h : name ≠ other) :
    (⟨(other, j) :: fields, named⟩ : Record).optional name decode =
      (⟨fields, named⟩ : Record).optional name decode := by
  rw [optional, lookup_cons_of_ne h, optional]

@[simp]
theorem defaulted_cons_self :
    (⟨(name, j) :: fields, named⟩ : Record).defaulted name a decode = decode j := by
  rw [defaulted, List.lookup_cons_self]

@[simp]
theorem defaulted_cons_of_ne (h : name ≠ other) :
    (⟨(other, j) :: fields, named⟩ : Record).defaulted name a decode =
      (⟨fields, named⟩ : Record).defaulted name a decode := by
  rw [defaulted, lookup_cons_of_ne h, defaulted]

end Record

theorem reread?_fields {fields fields' : List (String × Json)}
    (h : S.rereadFields? fields = some fields') :
    S.reread? (.object fields) = some (.object fields') :=
  reread?_object.mpr ⟨fields', h, rfl⟩

theorem recovers_unit (hS : S.Faithful) {lookup : String → Option α} {tag : String}
    (h : lookup tag = some a) :
    S.Recovers (unit? lookup) (.string tag) a := ⟨.string tag, reread?_string hS tag, h⟩

@[simp]
theorem variant?_tagged (tag : String) (j : Json) :
    variant? (.tagged tag j) = some (tag, some j) := rfl

theorem reread?_tagged {tag : String} {j j' : Json} (h : S.reread? j = some j') :
    S.reread? (.tagged tag j) = some (.tagged tag j') :=
  reread?_fields (rereadFields?_cons.mpr ⟨j', [], h, rfl, rfl⟩)

theorem Serializer.Recovers.tagged {decode' : Json → Option β} {tag : String} {b : β}
    (h : S.Recovers decode j a)
    (htag : ∀ j', decode j' = some a → decode' (.tagged tag j') = some b) :
    S.Recovers decode' (.tagged tag j) b := by
  obtain ⟨j', hread, hdecode⟩ := h
  exact ⟨.tagged tag j', reread?_tagged hread, htag j' hdecode⟩

end HybridGraph.Json
