import HybridGraph.Graph.Stored
import HybridGraph.Proofs.Graph.Spelling
import HybridGraph.Proofs.Graph.WellFormed
import HybridGraph.Proofs.Tensor.Stored
/-!
# Stored graphs

A graph is storable if its numbers fit their machine words and its floats are finite.  Under every
faithful serializer an accepted graph that is storable is recovered from its record, and so loaded
as it was stored:

    S.Faithful → g.SingleAssignment → g.Storable →
      S.Recovers Graph.ofJson? g.toJson g                                           (Graph.recovers)
    S.Faithful → g.verify = .ok () → g.Storable →
      Graph.loadWith S (g.storedWith S) = .ok g                                  (Graph.load_stored)

Neither loading nor verifying looks into the tensors that nodes hold, so a constant of any storable
tensor is loaded under any declared type (`Graph.load_holding`).
-/

namespace HybridGraph

open Json Json.Serializer

variable {S : Json.Serializer}

/-! ## Attributes -/

namespace Attr

/-- Numbers fit their words, floats are finite. -/
def Storable : Attr → Prop
  | .int n => Text.minInt ≤ n ∧ n ≤ Text.maxInt
  | .float x => x.isFinite = true
  | .ints ns => ∀ n ∈ ns, Text.minInt ≤ n ∧ n ≤ Text.maxInt
  | .floats xs => ∀ x ∈ xs, x.isFinite = true
  | .tensor t => t.Storable
  | _ => True

theorem recovers (hS : S.Faithful) {a : Attr} (h : a.Storable) :
    S.Recovers Attr.ofJson? a.toJson a := by
  cases a with
  | none => exact ⟨.string "None", reread?_string hS _, rfl⟩
  | int n =>
    exact (recovers_word hS h).tagged fun j hj => by simp [ofJson?, hj]
  | float x =>
    exact (recovers_double hS h).tagged fun j hj => by simp [ofJson?, hj]
  | bool b =>
    exact (recovers_bool hS b).tagged fun j hj => by simp [ofJson?, hj]
  | str s =>
    exact (recovers_string hS s).tagged fun j hj => by simp [ofJson?, hj]
  | ints ns =>
    exact (recovers_words hS h).tagged fun j hj => by simp [ofJson?, hj]
  | floats xs =>
    have hlist : S.Recovers (list? double?) (.list .double xs) xs :=
      recovers_list fun x hx => recovers_double hS (h x hx)
    exact hlist.tagged fun j hj => by simp [ofJson?, hj]
  | tensor t =>
    exact (Tensor.recovers hS h).tagged fun j hj => by simp [ofJson?, hj]
  | dtype t => exact (t.recovers hS).tagged fun j hj => by simp [ofJson?, hj]

theorem depth_toJson_le (a : Attr) : a.toJson.depth ≤ 4 := by
  cases a with
  | ints ns =>
    have hints := depth_ints_le ns
    rw [toJson, depth_tagged]
    omega
  | floats xs =>
    have hfloats : (list Json.double xs).depth ≤ 1 := depth_list_le fun _ _ => Nat.le_refl 0
    rw [toJson, depth_tagged]
    omega
  | tensor t =>
    have htensor := t.depth_toJson_le
    rw [toJson, depth_tagged]
    omega
  | none => exact Nat.zero_le 4
  | _ => exact (depth_tagged _ _).trans_le (Nat.succ_le_succ (Nat.zero_le 3))

end Attr

namespace AttrList

theorem entries_foldl_insert {entries : List (String × Attr)} {attrs : AttrList}
    (h : SortedByName (attrs.entries ++ entries)) :
    (entries.foldl (fun attrs e => attrs.insert e.1 e.2) attrs).entries =
      attrs.entries ++ entries := by
  induction entries generalizing attrs with
  | nil => simp
  | cons e entries ih =>
    have hlast : (attrs.insert e.1 e.2).entries = attrs.entries ++ [e] :=
      insertEntry_of_lt fun other hother =>
        (List.pairwise_append.mp h).2.2 other hother e List.mem_cons_self
    have hnext : SortedByName ((attrs.insert e.1 e.2).entries ++ entries) := by
      rw [hlast, List.append_assoc]
      exact h
    rw [List.foldl_cons, ih hnext, hlast, List.append_assoc]
    rfl

/-- The entries of a list make the list. -/
theorem ofList_entries (attrs : AttrList) : ofList attrs.entries = attrs := by
  have hsorted : SortedByName (empty.entries ++ attrs.entries) := attrs.sorted
  exact ext (entries_foldl_insert hsorted)

theorem recovers (hS : S.Faithful) {attrs : AttrList} (h : ∀ e ∈ attrs.entries, e.2.Storable) :
    S.Recovers AttrList.ofJson? attrs.toJson attrs := by
  have hentries : ∀ {entries : List (String × Attr)}, (∀ e ∈ entries, e.2.Storable) →
      ∃ fields, S.rereadFields? (entries.map fun e => (e.1, e.2.toJson)) = some fields ∧
        fields.mapM (fun field => return (field.1, ← Attr.ofJson? field.2)) = some entries := by
    intro entries hall
    induction entries with
    | nil => exact ⟨[], rfl, rfl⟩
    | cons e entries ih =>
      obtain ⟨he, hrest⟩ := List.forall_mem_cons.mp hall
      obtain ⟨j, hread, hdecode⟩ := Attr.recovers hS he
      obtain ⟨fields, hreads, hdecodes⟩ := ih hrest
      refine ⟨(e.1, j) :: fields, rereadFields?_cons.mpr ⟨j, fields, hread, hreads, rfl⟩, ?_⟩
      rw [List.mapM_cons, hdecodes]
      simp [hdecode]
  obtain ⟨fields, hreads, hdecodes⟩ := hentries h
  refine ⟨.object fields, reread?_object.mpr ⟨fields, hreads, rfl⟩, ?_⟩
  rw [ofJson?, hdecodes]
  exact congrArg some attrs.ofList_entries

theorem depth_toJson_le (attrs : AttrList) : attrs.toJson.depth ≤ 5 := by
  rw [toJson, depth, Nat.add_le_add_iff_right]
  induction attrs.entries with
  | nil => exact Nat.zero_le 4
  | cons e entries ih => exact Nat.max_le.mpr ⟨e.2.depth_toJson_le, ih⟩

end AttrList

/-! ## Values and nodes -/

theorem OpKind.recovers (hS : S.Faithful) (kind : OpKind) :
    S.Recovers OpKind.ofJson? kind.toJson kind :=
  recovers_unit hS (by cases kind <;> rfl)

theorem ValueId.recovers (hS : S.Faithful) {v : ValueId} (h : v.index < Number.twoPow 32) :
    S.Recovers ValueId.ofJson? v.toJson v := (recovers_index hS h).map ValueId.mk

theorem recovers_valueIds (hS : S.Faithful) {vs : List ValueId}
    (h : ∀ v ∈ vs, v.index < Number.twoPow 32) :
    S.Recovers (list? ValueId.ofJson?) (.list ValueId.toJson vs) vs :=
  recovers_list fun v hv => ValueId.recovers hS (h v hv)

theorem NodeId.recovers (hS : S.Faithful) {id : NodeId} (h : id.number < Number.twoPow 32) :
    S.Recovers NodeId.ofJson? id.toJson id := (recovers_index hS h).map NodeId.mk

theorem recovers_text (hS : S.Faithful) (text : Option String) :
    S.Recovers (option? string?) (.option .string text) text :=
  recovers_option hS rfl fun s _ => recovers_string hS s

theorem ValueInfo.recovers (hS : S.Faithful) {v : ValueInfo} (h : v.type.Storable) :
    S.Recovers ValueInfo.ofJson? v.toJson v := by
  obtain ⟨jtype, htype, htype'⟩ := ValueType.recovers hS h
  obtain ⟨jname, hname, hname'⟩ := recovers_text hS v.name
  refine ⟨.object [("ty", jtype), ("name", jname)], reread?_fields ?_, ?_⟩
  · simp [rereadFields?, htype, hname]
  · simp [ofJson?, htype', hname']

theorem ValueInfo.depth_toJson_le (v : ValueInfo) : v.toJson.depth ≤ 5 := by
  have htype := v.type.depth_toJson_le
  have hname : (option Json.string v.name).depth ≤ 0 := depth_option_le fun _ _ => Nat.le_refl 0
  simp only [toJson, depth, fieldsDepth]
  omega

/-- Numbers fit their words, floats are finite. -/
structure Node.Storable (node : Node) : Prop where
  id : node.id.number < Number.twoPow 32
  attrs : ∀ e ∈ node.attrs.entries, e.2.Storable

theorem Node.recovers (hS : S.Faithful) {node : Node} (h : node.Storable)
    (hin : ∀ v ∈ node.inputs, v.index < Number.twoPow 32)
    (hout : ∀ v ∈ node.outputs, v.index < Number.twoPow 32) :
    S.Recovers Node.ofJson? node.toJson node := by
  obtain ⟨jid, hid, hid'⟩ := NodeId.recovers hS h.id
  obtain ⟨jkind, hkind, hkind'⟩ := node.kind.recovers hS
  obtain ⟨jin, hin, hin'⟩ := recovers_valueIds hS hin
  obtain ⟨jout, hout, hout'⟩ := recovers_valueIds hS hout
  obtain ⟨jattrs, hattrs, hattrs'⟩ := AttrList.recovers hS h.attrs
  obtain ⟨jscope, hscope, hscope'⟩ := recovers_text hS node.scope
  refine ⟨.object [("id", jid), ("kind", jkind), ("inputs", jin), ("outputs", jout),
    ("attrs", jattrs), ("scope", jscope)], reread?_fields ?_, ?_⟩
  · simp [rereadFields?, hid, hkind, hin, hout, hattrs, hscope]
  · simp [ofJson?, hid', hkind', hin', hout', hattrs', hscope']

theorem depth_valueIds_le (vs : List ValueId) : (list ValueId.toJson vs).depth ≤ 1 :=
  depth_list_le fun _ _ => Nat.le_refl 0

theorem Node.depth_toJson_le (node : Node) : node.toJson.depth ≤ 6 := by
  have hin := depth_valueIds_le node.inputs
  have hout := depth_valueIds_le node.outputs
  have hattrs := node.attrs.depth_toJson_le
  have hscope : (option Json.string node.scope).depth ≤ 0 :=
    depth_option_le fun _ _ => Nat.le_refl 0
  have hid : node.id.toJson.depth = 0 := rfl
  have hkind : node.kind.toJson.depth = 0 := rfl
  simp only [toJson, depth, fieldsDepth]
  omega

/-! ## Graphs -/

namespace Graph

variable {g : Graph}

/-- Numbers fit their words, floats are finite.  The arena is no larger than value ids can name. -/
structure Storable (g : Graph) : Prop where
  arena : g.values.size ≤ Number.twoPow 32
  types : ∀ v ∈ g.values, v.type.Storable
  nodes : ∀ node ∈ g.nodes, node.Storable
  counter : g.nextNode < Number.twoPow 32

/-- Every value that exists in a storable graph has the id of a machine word. -/
theorem Storable.index_lt (h : g.Storable) (hform : g.SingleAssignment) {v : ValueId}
    (hv : v ∈ definedBy g.inputs g.nodes) : v.index < Number.twoPow 32 :=
  Nat.lt_of_lt_of_le (hform.index_lt hv) h.arena

theorem recovers (hS : S.Faithful) (hform : g.SingleAssignment) (h : g.Storable) :
    S.Recovers Graph.ofJson? g.toJson g := by
  have hnode : ∀ node ∈ g.nodes, S.Recovers Node.ofJson? node.toJson node := by
    intro node hn
    refine Node.recovers hS (h.nodes node hn) (fun v hv => ?_) fun v hv =>
      h.index_lt hform (mem_definedBy.mpr (.inr ⟨node, hn, hv⟩))
    obtain ⟨before, after, hsplit⟩ := List.append_of_mem hn
    have hdefined := (hform.nodes before node after hsplit).reads v hv
    exact h.index_lt hform (hsplit ▸ definedBy_subset_append _ _ _ hdefined)
  have hvalues : S.Recovers (list? ValueInfo.ofJson?) (.list ValueInfo.toJson g.values.toList)
      g.values.toList :=
    recovers_list fun v hv => ValueInfo.recovers hS (h.types v (Array.mem_toList_iff.mp hv))
  obtain ⟨jname, hname, hname'⟩ := recovers_string hS g.name
  obtain ⟨jvalues, hvalues, hvalues'⟩ := hvalues
  obtain ⟨jnodes, hnodes, hnodes'⟩ := recovers_list hnode
  obtain ⟨jin, hin, hin'⟩ := recovers_valueIds hS fun v hv =>
    h.index_lt hform (mem_definedBy.mpr (.inl hv))
  obtain ⟨jout, hout, hout'⟩ := recovers_valueIds hS fun v hv =>
    h.index_lt hform (hform.outputs v hv)
  obtain ⟨jnext, hnext, hnext'⟩ := recovers_index hS h.counter
  refine ⟨.object [("name", jname), ("values", jvalues), ("nodes", jnodes), ("inputs", jin),
    ("outputs", jout), ("next_node", jnext)], reread?_fields ?_, ?_⟩
  · simp [rereadFields?, hname, hvalues, hnodes, hin, hout, hnext]
  · simp [ofJson?, hname', hvalues', hnodes', hin', hout', hnext']

theorem depth_toJson_le (g : Graph) : g.toJson.depth ≤ 8 := by
  have hvalues : (list ValueInfo.toJson g.values.toList).depth ≤ 6 :=
    depth_list_le fun v _ => v.depth_toJson_le
  have hnodes : (list Node.toJson g.nodes).depth ≤ 7 :=
    depth_list_le fun node _ => node.depth_toJson_le
  have hin := depth_valueIds_le g.inputs
  have hout := depth_valueIds_le g.outputs
  have hnext : (nat g.nextNode).depth = 0 := rfl
  simp only [toJson, depth, fieldsDepth]
  omega

/-- A storable graph that is accepted is loaded as it was stored. -/
theorem load_stored (hS : S.Faithful) (hg : g.verify = .ok ()) (h : g.Storable) :
    loadWith S (g.storedWith S) = .ok g := by
  have hread := (recovers hS (verify_eq_ok.mp hg).1 h).read hS
    (g.depth_toJson_le.trans (by decide))
  unfold loadWith storedWith
  rw [hread]
  exact Outcome.bind_eq_ok.mpr ⟨(), Outcome.mapError_eq_ok.mpr hg, rfl⟩

/-! ## Constants -/

/-- A graph that gives one constant. -/
def holding (type : TensorType) (t : Tensor) : Graph where
  name := "holding"
  values := #[⟨.tensor type, none⟩]
  nodes := [⟨⟨0⟩, .constant, [], [⟨0⟩], .ofList [("value", .tensor t)], none⟩]
  inputs := []
  outputs := [⟨0⟩]
  nextNode := 1

theorem verify_holding (type : TensorType) (t : Tensor) : (holding type t).verify = .ok () := by
  have hnone : ∀ {p : ValueId → Prop}, ∀ v ∈ ([] : List ValueId), p v :=
    fun _ hv => absurd hv List.not_mem_nil
  have hnodes : InOrder (holding type t).values.size [] (holding type t).nodes := by
    rw [← List.nil_append (holding type t).nodes]
    refine inOrder_concat.mpr ⟨inOrder_nil _ _, ?_⟩
    exact ⟨List.not_mem_nil, hnone, List.nodup_singleton _, by simp [definedBy], by simp [holding]⟩
  refine verify_eq_ok.mpr ⟨⟨List.nodup_nil, hnone, hnodes, by simp [holding, definedBy]⟩,
    fun node hn => ?_⟩
  obtain rfl := List.mem_singleton.mp hn
  rfl

/-- Loading verifies the structure of a graph and looks at no tensor: any storable one gets in,
whether its elements fit its element type, its extents and the declared type of its value or not. -/
theorem load_holding (hS : S.Faithful) {type : TensorType} {t : Tensor} (htype : type.Storable)
    (ht : t.Storable) : loadWith S ((holding type t).storedWith S) = .ok (holding type t) := by
  have hword : 1 < Number.twoPow 32 := by decide
  refine load_stored hS (verify_holding type t) ⟨hword.le, fun v hv => ?_, fun node hn => ?_, hword⟩
  · obtain rfl : v = ⟨.tensor type, none⟩ := by simpa [holding] using hv
    exact htype
  · obtain rfl := List.mem_singleton.mp hn
    refine ⟨Nat.lt_trans Nat.zero_lt_one hword, fun e he => ?_⟩
    obtain rfl := List.mem_singleton.mp he
    exact ht

end Graph

end HybridGraph
