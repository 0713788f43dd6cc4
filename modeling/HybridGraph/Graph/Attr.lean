import HybridGraph.Number.Decimal
import HybridGraph.Tensor.Basic
/-!
# Attributes

Constant payloads of nodes, and the attribute lists that hold them: sorted by name, each name once,
so two lists with the same entries are equal.
-/

namespace HybridGraph

/-- A constant payload. -/
inductive Attr where
  | none
  | int (value : Int)
  | float (value : Float)
  | bool (value : Bool)
  | str (value : String)
  | ints (values : List Int)
  | floats (values : List Float)
  | tensor (value : Tensor)
  | dtype (value : DType)

namespace Attr

/-- As an integer; a truth value is 0 or 1. -/
def int? : Attr → Option Int
  | .int n => some n
  | .bool b => some (if b then 1 else 0)
  | _ => Option.none

/-- As a number; an integer is rounded to a double. -/
def float? : Attr → Option Float
  | .float x => some x
  | .int n => some (Number.ofInt n)
  | _ => Option.none

/-- As a truth value; an integer is true when it is not zero. -/
def bool? : Attr → Option Bool
  | .bool b => some b
  | .int n => some (n != 0)
  | _ => Option.none

/-- As a string. -/
def str? : Attr → Option String
  | .str s => some s
  | _ => Option.none

/-- As a list of integers. -/
def ints? : Attr → Option (List Int)
  | .ints ns => some ns
  | _ => Option.none

/-- As a tensor. -/
def tensor? : Attr → Option Tensor
  | .tensor t => some t
  | _ => Option.none

/-- As an element type. -/
def dtype? : Attr → Option DType
  | .dtype t => some t
  | _ => Option.none

/-- Whether the payload is the empty one. -/
def isNone : Attr → Bool
  | .none => true
  | _ => false

/-- The name of the case; it is the tag in stored records. -/
def tag : Attr → String
  | .none => "None"
  | .int _ => "Int"
  | .float _ => "Float"
  | .bool _ => "Bool"
  | .str _ => "Str"
  | .ints _ => "Ints"
  | .floats _ => "Floats"
  | .tensor _ => "Tensor"
  | .dtype _ => "DType"

/-- Numbers in brackets. -/
def floatList (xs : List Float) : String := Text.bracketed Number.FloatLayout.literal.double xs

/-- The spelling in graph texts.  Of a tensor only the elements are written; its element type and
extents stand in the type of the value. -/
def text : Attr → String
  | .none => "None"
  | .int n => toString n
  | .float x => Number.FloatLayout.literal.double x
  | .bool b => if b then "true" else "false"
  | .str s => s!"\"{s}\""
  | .ints ns => Text.intList ns
  | .floats xs => floatList xs
  | .tensor t => floatList t.doubles.toList
  | .dtype t => t.name

end Attr

/-! ## Attribute lists -/

/-- Puts an entry at its place in a sorted list, instead of an earlier one of the same name. -/
def insertEntry {α : Type} (name : String) (value : α) : List (String × α) → List (String × α)
  | [] => [(name, value)]
  | (other, held) :: rest =>
    if name < other then (name, value) :: (other, held) :: rest
    else if name = other then (name, value) :: rest
    else (other, held) :: insertEntry name value rest

theorem mem_insertEntry {α : Type} {name : String} {value : α} {entries : List (String × α)}
    {e : String × α} (h : e ∈ insertEntry name value entries) :
    e = (name, value) ∨ e ∈ entries := by
  induction entries with
  | nil => exact .inl (List.mem_singleton.mp h)
  | cons head rest ih =>
    rw [insertEntry] at h
    split at h
    · exact (List.mem_cons.mp h).imp_right id
    · split at h
      · exact (List.mem_cons.mp h).imp_right (List.mem_cons_of_mem _)
      · rcases List.mem_cons.mp h with h | h
        · exact .inr (h ▸ List.mem_cons_self)
        · exact (ih h).imp_right (List.mem_cons_of_mem _)

/-- The names grow strictly. -/
def SortedByName {α : Type} (entries : List (String × α)) : Prop :=
  entries.Pairwise fun a b => a.1 < b.1

theorem sortedByName_insertEntry {α : Type} (name : String) (value : α)
    {entries : List (String × α)} (h : SortedByName entries) :
    SortedByName (insertEntry name value entries) := by
  induction entries with
  | nil => exact List.pairwise_singleton _ _
  | cons head rest ih =>
    obtain ⟨hhead, hrest⟩ := List.pairwise_cons.mp h
    rw [insertEntry]
    split
    · rename_i hlt
      refine List.pairwise_cons.mpr ⟨fun e he => ?_, h⟩
      rcases List.mem_cons.mp he with he | he
      · exact he ▸ hlt
      · exact String.lt_trans hlt (hhead e he)
    · split
      · rename_i heq
        exact List.pairwise_cons.mpr ⟨fun e he => heq ▸ hhead e he, hrest⟩
      · rename_i hle hne
        refine List.pairwise_cons.mpr ⟨fun e he => ?_, ih hrest⟩
        rcases mem_insertEntry he with he | he
        · have hle' : head.1 ≤ name := hle
          exact he ▸ Std.lt_of_le_of_ne hle' (fun h => hne h.symm)
        · exact hhead e he

/-- The attributes of a node. -/
structure AttrList where
  entries : List (String × Attr)
  sorted : SortedByName entries

namespace AttrList

/-- No attributes. -/
def empty : AttrList := ⟨[], List.Pairwise.nil⟩

/-- The attribute of a name. -/
def get? (attrs : AttrList) (name : String) : Option Attr := attrs.entries.lookup name

/-- Whether there is an attribute of the name. -/
def contains (attrs : AttrList) (name : String) : Bool := (attrs.get? name).isSome

/-- Adds an attribute, instead of an earlier one of the same name. -/
def insert (attrs : AttrList) (name : String) (value : Attr) : AttrList :=
  ⟨insertEntry name value attrs.entries, sortedByName_insertEntry name value attrs.sorted⟩

/-- Attributes from entries; of two with one name the later one stays. -/
def ofList (entries : List (String × Attr)) : AttrList :=
  entries.foldl (fun attrs e => attrs.insert e.1 e.2) empty

theorem ext {a b : AttrList} (h : a.entries = b.entries) : a = b := by
  cases a; cases b; subst h; rfl

end AttrList

end HybridGraph
