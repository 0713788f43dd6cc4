import HybridGraph.Proofs.Execute.Readers
import HybridGraph.Proofs.Graph.Parsing
import HybridGraph.Proofs.Lowering.Simplification
import HybridGraph.Proofs.Lowering.SameRun
/-!
# Folding keeps what a graph computes

A folded node reads from its attributes what it read from constant operands, so its calls are alike
(`Folding.alike_foldAttributes`, `Folding.alike_foldOther`), and a sweep of folds keeps every run:

    Graph.parse text = .ok g → g.AttributesOnce → g.run interpret inputs = .ok outs →
      (Folding.run g).1.run interpret inputs = .ok outs ∧ …                (Graph.run_fold_of_parse)

An attribute must not be given twice: an interpreter prefers the one on the node, and a fold
overwrites it with the one that the operand carries.
-/

namespace HybridGraph

/-! ## Graphs whose folds are harmless -/

/-- No attribute that the node has is passed as an operand too. -/
def Node.AttributesOnce (node : Node) : Prop :=
  ∀ count, node.kind.tensorOperands? = some count →
    ∀ entry ∈ node.kind.attributeNames.zip (node.inputs.drop count), node.attr? entry.1 = none

/-- No attribute is given twice. -/
def Graph.AttributesOnce (g : Graph) : Prop := ∀ node ∈ g.nodes, node.AttributesOnce

open Reference

variable {g : Graph} {bound : Bindings} {node folded : Node} {args : List Datum} {name : String}
  {count : Nat}

/-! ## Constants in runs -/

/-- A run binds a constant that is no tensor to its payload. -/
theorem Graph.read_of_scalarConstant? (h : g.SolvedBy interpret bound) (hplain : g.PlainConstants)
    {v : ValueId} {a : Attr} (hconstant : g.scalarConstant? v = some a) :
    bound.read v = .ok (.scalar a) := by
  obtain ⟨node, hn, hv, hkind, htensor, hvalue⟩ := exists_of_scalarConstant? hconstant
  have hpayload : Call.constantValue node = .scalar a := by
    have hno := hplain node hn hkind v hv htensor
    unfold Call.constantValue
    rw [hvalue]
    cases a with
    | tensor t => exact absurd hvalue (hno t)
    | _ => rfl
  obtain ⟨args, results, -, hresults, houtputs⟩ := h.nodes node hn
  have hone : results = [.scalar a] := by
    unfold interpret Call.results at hresults
    rw [hkind, hpayload] at hresults
    exact (Except.ok.inj hresults).symm
  rw [hone] at houtputs
  obtain ⟨out, hout⟩ : ∃ out, node.outputs = [out] :=
    List.length_eq_one_iff.mp (Bindings.length_of_mapM_read houtputs).symm
  rw [hout] at houtputs hv
  obtain rfl := List.mem_singleton.mp hv
  obtain ⟨_, _, hread, -, hlist⟩ := Outcome.mapM_cons_eq_ok.mp houtputs
  rw [hread, (List.cons.inj hlist).1]

/-! ## What operands carry -/

namespace Folding

theorem lookup_zip {α : Type} {names : List String} {values : List α} :
    (names.zip values).lookup name =
      (names.findIdx? (· == name)).bind fun place => values[place]? := by
  induction names generalizing values with
  | nil => rfl
  | cons other names ih =>
    cases values with
    | nil => simp
    | cons value values =>
      rw [List.zip_cons_cons, lookup_cons_eq_ite, List.findIdx?_cons, ih]
      by_cases h : name = other
      · simp [h]
      · rw [if_neg h, if_neg (by simpa using Ne.symm h), Option.bind_map]
        rfl

theorem lookup_map {α β : Type} (f : String → α → β) (entries : List (String × α)) :
    (entries.map fun e => (e.1, f e.1 e.2)).lookup name = (entries.lookup name).map (f name) := by
  induction entries with
  | nil => rfl
  | cons entry entries ih =>
    obtain ⟨other, a⟩ := entry
    rw [List.map_cons, lookup_cons_eq_ite, lookup_cons_eq_ite, ih]
    by_cases h : name = other
    · rw [if_pos h, if_pos h, h]
      rfl
    · rw [if_neg h, if_neg h]

/-- The attribute that an operand carries, by name. -/
theorem attrOperand?_eq {call : Call} (hcount : call.node.kind.tensorOperands? = some count) :
    call.attrOperand? name =
      (call.node.kind.attributeNames.zip (call.args.drop count)).lookup name := by
  unfold Call.attrOperand? Call.arg?
  rw [lookup_zip, hcount]
  simp only [List.getElem?_drop]
  rfl

theorem get?_addFolded {attrs : AttrList} {other : String} {a : Attr} :
    (addFolded attrs (other, a)).get? name =
      if name = other ∧ (a.isNone && mayBeAbsent other) = false then some a
      else attrs.get? name := by
  unfold addFolded
  cases a.isNone && mayBeAbsent other with
  | true => simp
  | false =>
    rw [if_neg Bool.false_ne_true]
    refine (lookup_insertEntry).trans ?_
    simp only [and_true]
    rfl

/-- Adding attributes of distinct names. -/
theorem get?_foldl_addFolded {entries : List (String × Attr)} {attrs : AttrList}
    (hnodup : (entries.map Prod.fst).Nodup) :
    (entries.foldl addFolded attrs).get? name =
      match entries.lookup name with
      | some a => if a.isNone && mayBeAbsent name then attrs.get? name else some a
      | none => attrs.get? name := by
  induction entries generalizing attrs with
  | nil => rfl
  | cons entry entries ih =>
    obtain ⟨other, a⟩ := entry
    rw [List.map_cons, List.nodup_cons] at hnodup
    rw [List.foldl_cons, ih hnodup.2, lookup_cons_eq_ite]
    by_cases h : name = other
    · subst h
      have hlater : entries.lookup name = none := by
        rw [List.lookup_eq_none_iff]
        intro e he
        exact bne_iff_ne.mpr fun hsame => hnodup.1 (List.mem_map.mpr ⟨e, he, hsame.symm⟩)
      rw [hlater, if_pos rfl, get?_addFolded]
      dsimp only
      cases a.isNone && mayBeAbsent name <;> simp
    · rw [if_neg h, get?_addFolded, if_neg fun hsame => h hsame.1]

/-- The operands after the first ones, if all are constant: what they carry, and what they become
as attributes. -/
theorem exists_carried {names : List String} {vs : List ValueId} {values : List Datum}
    {entries : List (String × Attr)}
    (hconstants : ∀ v a, g.scalarConstant? v = some a → bound.read v = .ok (.scalar a))
    (hvalues : vs.mapM bound.read = .ok values)
    (hentries : ((names.zip vs).mapM fun (name, v) =>
      (g.scalarConstant? v).map fun a => (name, asAttribute name a)) = some entries) :
    ∃ carried : List (String × Attr), names.zip values = carried.map (fun e => (e.1, .scalar e.2)) ∧
      entries = carried.map (fun e => (e.1, asAttribute e.1 e.2)) ∧
      carried.map Prod.fst = (names.zip vs).map Prod.fst ∧
      (carried.map Prod.fst).Sublist names := by
  induction names generalizing vs values entries with
  | nil =>
    obtain rfl := Option.some.inj hentries
    exact ⟨[], rfl, rfl, rfl, List.Sublist.refl _⟩
  | cons name names ih =>
    cases vs with
    | nil =>
      obtain rfl := Outcome.pure_eq_ok.mp hvalues
      obtain rfl := Option.some.inj hentries
      exact ⟨[], rfl, rfl, rfl, List.nil_sublist _⟩
    | cons v vs =>
      obtain ⟨x, values, hx, hrestValues, rfl⟩ := Outcome.mapM_cons_eq_ok.mp hvalues
      rw [List.zip_cons_cons, List.mapM_cons] at hentries
      obtain ⟨entry, hentry, hentries⟩ := Option.bind_eq_some_iff.mp hentries
      obtain ⟨rest, hrest, hlist⟩ := Option.bind_eq_some_iff.mp hentries
      obtain ⟨a, ha, rfl⟩ := Option.map_eq_some_iff.mp hentry
      obtain rfl := Option.some.inj hlist
      obtain ⟨carried, hzip, rfl, hnames, hsublist⟩ := ih hrestValues hrest
      obtain rfl : x = .scalar a := Except.ok.inj (hx.symm.trans (hconstants v a ha))
      refine ⟨(name, a) :: carried, ?_, rfl, ?_, hsublist.cons_cons name⟩
      · rw [List.zip_cons_cons, hzip]
        rfl
      · rw [List.zip_cons_cons, List.map_cons, List.map_cons, hnames]

theorem nodup_attributeNames (kind : OpKind) : kind.attributeNames.Nodup := by
  cases kind <;> decide

theorem other_notMem_attributeNames (kind : OpKind) : "other" ∉ kind.attributeNames := by
  cases kind <;> decide

/-- Whoever takes a number on the right and attribute operands has two tensor operands. -/
theorem tensorOperands?_takesScalar {kind : OpKind} (htakes : kind.takesScalar = true)
    (h : kind.tensorOperands? = some count) : count = 2 := by
  cases kind <;> cases h <;> first | rfl | cases htakes

/-! ## Folded nodes compute the same -/

/-- The first operands of a node. -/
theorem mapM_read_take {vs : List ValueId} (h : vs.mapM bound.read = .ok args) (count : Nat) :
    (vs.take count).mapM bound.read = .ok (args.take count) :=
  Outcome.mapM_eq_ok.mpr (List.forall₂_take count (Outcome.mapM_eq_ok.mp h))

theorem mapM_read_drop {vs : List ValueId} (h : vs.mapM bound.read = .ok args) (count : Nat) :
    (vs.drop count).mapM bound.read = .ok (args.drop count) :=
  Outcome.mapM_eq_ok.mpr (List.forall₂_drop count (Outcome.mapM_eq_ok.mp h))

/-- An element type reads as its scalar code. -/
theorem asAttribute_of_ne {a : Attr} (h : name ≠ "dtype") : asAttribute name a = a := by
  unfold asAttribute
  cases a <;> simp [h]

/-- What a call reads before and after its attribute operands are folded: the same, or what an
operand carried and what that has become. -/
def Moved (name : String) (before after : Option Attr) : Prop :=
  after = before ∨ ∃ a, before = some a ∧
    after = if (asAttribute name a).isNone && mayBeAbsent name then none
      else some (asAttribute name a)

theorem Moved.eq {before after : Option Attr} (h : Moved name before after)
    (hgiven : mayBeAbsent name = false) : after = before := by
  rcases h with h | ⟨a, rfl, rfl⟩
  · exact h
  · have hne : name ≠ "dtype" := by
      rintro rfl
      cases hgiven
    rw [hgiven, Bool.and_false, if_neg Bool.false_ne_true, asAttribute_of_ne hne]

theorem Moved.dim {before after : Option Attr} (h : Moved "dim" before after) :
    after.getD .none = before.getD .none := by
  rcases h with rfl | ⟨a, rfl, rfl⟩
  · rfl
  · cases a <;> rfl

/-- A scalar code reads as the element type that it has become. -/
theorem Moved.dtype {call call' : Call}
    (hmoved : Moved "dtype" (call.attr? "dtype") (call'.attr? "dtype"))
    (hfault : ∀ fault, call'.node.fault fault = call.node.fault fault) :
    call'.dtype? "dtype" = call.dtype? "dtype" := by
  have hfail : ∀ fault, (call'.fail fault : Except ExecError (Option DType)) = call.fail fault :=
    fun fault => congrArg Except.error (hfault fault)
  unfold Call.dtype?
  simp only [hfail]
  rcases hmoved with h | ⟨a, hbefore, hafter⟩
  · rw [h]
  · rw [hbefore, hafter]
    cases a with
    | int code =>
      cases hcode : DType.ofScalarCode? code <;> simp [asAttribute, hcode, Attr.isNone]
    | _ => rfl

/-- What the attribute operands of a call carry, and what the folded node has instead of them. -/
structure Carries (node folded : Node) (args : List Datum) (carried : List (String × Attr)) :
    Prop where
  operand : ∀ name, (Call.mk node args).attrOperand? name = (carried.lookup name).map .scalar
  fresh : ∀ {name a}, carried.lookup name = some a → node.attr? name = none
  folded : ∀ name, folded.attr? name =
    match (carried.lookup name).map (asAttribute name) with
    | some a => if a.isNone && mayBeAbsent name then node.attr? name else some a
    | none => node.attr? name
  other : carried.lookup "other" = none

/-- Operands that are folded carry attributes. -/
theorem exists_carries
    (hconstants : ∀ v a, g.scalarConstant? v = some a → bound.read v = .ok (.scalar a))
    (honce : node.AttributesOnce) (hargs : node.inputs.mapM bound.read = .ok args)
    {entries : List (String × Attr)} (hcount : node.kind.tensorOperands? = some count)
    (hentries : trailing? g node count = some entries)
    (hfolded : folded.attrs = entries.foldl addFolded node.attrs) :
    ∃ carried, Carries node folded args carried := by
  obtain ⟨carried, hzip, rfl, hnames, hsublist⟩ :=
    exists_carried hconstants (mapM_read_drop hargs count) hentries
  refine ⟨carried, fun name => ?_, fun {name a} ha => ?_, fun name => ?_, ?_⟩
  · rw [attrOperand?_eq hcount, ← lookup_map fun _ => Datum.scalar, ← hzip]
  · have hmem : name ∈ (node.kind.attributeNames.zip (node.inputs.drop count)).map Prod.fst := by
      rw [← hnames]
      obtain ⟨front, back, hsplit, -⟩ := List.lookup_eq_some_iff.mp ha
      rw [hsplit]
      simp
    obtain ⟨entry, hentry, rfl⟩ := List.mem_map.mp hmem
    exact honce count hcount entry hentry
  · rw [← lookup_map, Node.attr?, hfolded]
    refine get?_foldl_addFolded ?_
    rw [List.map_map]
    exact hsublist.nodup (nodup_attributeNames node.kind)
  · rw [List.lookup_eq_none_iff]
    intro e he
    refine bne_iff_ne.mpr fun hsame => other_notMem_attributeNames node.kind ?_
    rw [hsame]
    exact hsublist.subset (List.mem_map_of_mem he)

/-- A call without attribute operands reads what the operands carried. -/
theorem Carries.moved {carried : List (String × Attr)} (h : Carries node folded args carried)
    {kept : List Datum} (hnone : (Call.mk folded kept).attrOperand? name = none) :
    Moved name ((Call.mk node args).attr? name) ((Call.mk folded kept).attr? name) := by
  rw [Call.attr?_of_no_operand hnone, h.folded]
  cases ha : carried.lookup name with
  | none =>
    have hsame : (Call.mk node args).attr? name = node.attr? name :=
      Call.attr?_of_no_operand (by rw [h.operand, ha]; rfl)
    exact .inl hsame.symm
  | some a =>
    refine .inr ⟨a, Call.attr?_of_operand (h.fresh ha) (by rw [h.operand, ha]; rfl), ?_⟩
    rw [h.fresh ha]
    rfl

theorem Carries.float? {carried : List (String × Attr)} (h : Carries node folded args carried) :
    folded.float? "other" = node.float? "other" := by
  unfold Node.float?
  rw [h.folded, h.other]
  rfl

/-- A node with folded attributes reads what it read from its operands. -/
theorem alike_foldAttributes
    (hconstants : ∀ v a, g.scalarConstant? v = some a → bound.read v = .ok (.scalar a))
    (honce : node.AttributesOnce) (hfold : foldAttributes? g node = some folded)
    (hargs : node.inputs.mapM bound.read = .ok args) :
    ∃ kept, folded.inputs.mapM bound.read = .ok kept ∧
      Call.Alike node.kind ⟨node, args⟩ ⟨folded, kept⟩ := by
  obtain ⟨count, entries, hcount, hlt, hle, hentries, hfolded⟩ := foldAttributes?_eq_some.mp hfold
  obtain ⟨carried, hcarries⟩ : ∃ carried, Carries node folded args carried :=
    exists_carries hconstants honce hargs hcount hentries (by rw [← hfolded])
  have hkind : folded.kind = node.kind := by rw [← hfolded]
  have hid : folded.id = node.id := by rw [← hfolded]
  have hfault : ∀ fault, folded.fault fault = node.fault fault := fun fault => by
    rw [Node.fault, Node.fault, hid, hkind]
  have hmoved : ∀ name, Moved name ((Call.mk node args).attr? name)
      ((Call.mk folded (args.take count)).attr? name) := by
    refine fun name => hcarries.moved ?_
    rw [attrOperand?_eq (hkind ▸ hcount), List.drop_take_self]
    cases folded.kind.attributeNames <;> rfl
  refine ⟨args.take count, ?_, rfl, hkind, hid, ?_, fun htakes => ?_,
    (hmoved "dtype").dtype hfault, (hmoved "dim").dim, fun name _ hgiven => (hmoved name).eq hgiven⟩
  · rw [← hfolded]
    exact mapM_read_take hargs count
  · exact List.getElem?_take_of_lt (OpKind.positive_of_tensorOperands? hcount)
  · obtain rfl := tensorOperands?_takesScalar htakes hcount
    have hright : (Call.mk folded (args.take 2)).arg? 1 = (Call.mk node args).arg? 1 :=
      List.getElem?_take_of_lt (by decide)
    have hfail : ∀ fault, ((Call.mk folded (args.take 2)).fail fault :
        Except ExecError (Tensor ⊕ Float)) = (Call.mk node args).fail fault :=
      fun fault => congrArg Except.error (hfault fault)
    unfold Call.right
    simp only [hright, hcarries.float?, hfail]

/-- No operand carries an attribute where a number may stand on the right. -/
theorem attrOperand?_of_takesScalar {call : Call} (htakes : call.node.kind.takesScalar = true)
    (hlength : call.args.length ≤ 2) : call.attrOperand? name = none := by
  cases hcount : call.node.kind.tensorOperands? with
  | none =>
    unfold Call.attrOperand?
    rw [hcount]
    rfl
  | some count =>
    obtain rfl := tensorOperands?_takesScalar htakes hcount
    rw [attrOperand?_eq hcount, List.drop_eq_nil_of_le hlength, List.zip_nil_right]
    rfl

/-- A node with a folded second operand reads the number that it read from the operand. -/
theorem alike_foldOther
    (hconstants : ∀ v a, g.scalarConstant? v = some a → bound.read v = .ok (.scalar a))
    (hfold : foldOther? g node = some folded) (hargs : node.inputs.mapM bound.read = .ok args) :
    ∃ kept, folded.inputs.mapM bound.read = .ok kept ∧
      Call.Alike node.kind ⟨node, args⟩ ⟨folded, kept⟩ := by
  obtain ⟨x, y, other, htakes, hinputs, hother, hfolded⟩ := foldOther?_eq_some.mp hfold
  obtain ⟨a, ha, hnumber⟩ := Option.bind_eq_some_iff.mp hother
  have hkind : folded.kind = node.kind := by rw [← hfolded]
  have hid : folded.id = node.id := by rw [← hfolded]
  have hattr : ∀ name, folded.attr? name =
      if name = "other" then some (.float other) else node.attr? name := by
    intro name
    rw [← hfolded]
    exact Node.attr?_setAttr
  rw [hinputs] at hargs
  obtain ⟨first, _, hfirst, hrest, rfl⟩ := Outcome.mapM_cons_eq_ok.mp hargs
  obtain ⟨second, _, hsecond, hnil, rfl⟩ := Outcome.mapM_cons_eq_ok.mp hrest
  obtain rfl := Outcome.pure_eq_ok.mp hnil
  obtain rfl : second = .scalar a := Except.ok.inj (hsecond.symm.trans (hconstants y a ha))
  have hsame : ∀ name, name ≠ "other" →
      (Call.mk folded [first]).attr? name = (Call.mk node [first, .scalar a]).attr? name := by
    intro name hne
    rw [Call.attr?_of_no_operand (attrOperand?_of_takesScalar (hkind ▸ htakes) (by simp)),
      Call.attr?_of_no_operand (attrOperand?_of_takesScalar htakes (by simp)), hattr, if_neg hne]
  have hright : (Call.mk folded [first]).right = (Call.mk node [first, .scalar a]).right := by
    have hfloat : folded.float? "other" = some other := by
      unfold Node.float?
      rw [hattr, if_pos rfl]
      rfl
    rw [Call.right_of_other rfl hfloat, Call.right_of_scalar rfl hnumber]
  refine ⟨[first], ?_, rfl, hkind, hid, rfl, fun _ => hright,
    Moved.dtype (.inl (hsame _ (by decide))) fun fault => ?_,
    Moved.dim (.inl (hsame _ (by decide))), fun name hname _ => hsame name ?_⟩
  · rw [← hfolded]
    exact mapM_read_take hargs 1
  · rw [Node.fault, Node.fault, hid, hkind]
  · rintro rfl
    exact other_notMem_attributeNames _ hname

/-! ## Sweeps -/

/-- What a sweep of folds keeps. -/
structure Foldable (g : Graph) (bound : Bindings) : Prop where
  solved : g.SolvedBy interpret bound
  once : g.AttributesOnce
  plain : g.PlainConstants

theorem Foldable.reads (h : Foldable g bound) (v : ValueId) (a : Attr)
    (hconstant : g.scalarConstant? v = some a) : bound.read v = .ok (.scalar a) :=
  Graph.read_of_scalarConstant? h.solved h.plain hconstant

/-- A node that may take the place of another one in a run. -/
structure Replaces (bound : Bindings) (node folded : Node) : Prop where
  narrows : folded.Narrows node
  solves : bound.Solves interpret folded
  once : folded.AttributesOnce
  constant : folded.kind ≠ .constant
  prints : folded.kind ≠ .print ∧ node.kind ≠ .print

/-- A node that reads the same as another one may take its place. -/
theorem replaces_of_alike (hnarrows : folded.Narrows node) (honce : folded.AttributesOnce)
    (hfolds : node.kind.tensorOperands?.isSome = true ∨ node.kind.takesScalar = true)
    (hsolves : bound.Solves interpret node)
    (halike : ∀ {args}, node.inputs.mapM bound.read = .ok args →
      ∃ kept, folded.inputs.mapM bound.read = .ok kept ∧
        Call.Alike node.kind ⟨node, args⟩ ⟨folded, kept⟩) :
    Replaces bound node folded := by
  obtain ⟨args, results, hargs, hresults, houtputs⟩ := hsolves
  obtain ⟨kept, hkept, halike⟩ := halike hargs
  have hkind : folded.kind = node.kind := halike.ofKind'
  have hprint : node.kind ≠ .print := by
    intro h
    rw [h] at hfolds
    simp [OpKind.tensorOperands?, OpKind.takesScalar] at hfolds
  have hconstant : node.kind ≠ .constant := by
    intro h
    rw [h] at hfolds
    simp [OpKind.tensorOperands?, OpKind.takesScalar] at hfolds
  refine ⟨hnarrows, ⟨kept, results, hkept, ?_, ?_⟩, honce, hkind ▸ hconstant,
    hkind ▸ hprint, hprint⟩
  · exact (halike.results hfolds).trans hresults
  · rw [hnarrows.outputs]
    exact houtputs

theorem sameRun_applyFold {fold? : Graph → Node → Option Node} (id : NodeId)
    {state : Graph × Nat} (h : Foldable state.1 bound)
    (hfold : ∀ {node folded}, node ∈ state.1.nodes → fold? state.1 node = some folded →
      Replaces bound node folded) :
    state.1.SameRun interpret bound (applyFold fold? id state).1 ∧
      Foldable (applyFold fold? id state).1 bound := by
  obtain ⟨f, heq, hf⟩ := exists_applyFold fold? id h.solved.form
  have hcases : ∀ n ∈ state.1.nodes, f n = n ∨ Replaces bound n (f n) := fun n hn =>
    (hf n hn).imp_right (hfold hn)
  have hsame : state.1.SameRun interpret bound { state.1 with nodes := state.1.nodes.map f } := by
    refine .map h.solved (fun n hn => ?_) (fun n hn => ?_) fun n hn => ?_
    · rcases hcases n hn with hsame | hreplaces
      · exact hsame.symm ▸ .refl n
      · exact hreplaces.narrows
    · rcases hcases n hn with hsame | hreplaces
      · rw [hsame]
        exact h.solved.nodes n hn
      · exact hreplaces.solves
    · rcases hcases n hn with hsame | hreplaces
      · rw [hsame]
      · rw [Node.printed, Node.printed, if_neg hreplaces.prints.1, if_neg hreplaces.prints.2]
  rw [heq]
  refine ⟨hsame, hsame.solved, fun n hn => ?_, fun n hn hkind => ?_⟩
  · obtain ⟨m, hm, rfl⟩ := List.mem_map.mp hn
    rcases hcases m hm with hsame | hreplaces
    · rw [hsame]
      exact h.once m hm
    · exact hreplaces.once
  · obtain ⟨m, hm, rfl⟩ := List.mem_map.mp hn
    rcases hcases m hm with hsame | hreplaces
    · rw [hsame] at hkind ⊢
      exact h.plain m hm hkind
    · exact absurd hkind hreplaces.constant

theorem attributesOnce_foldAttributes (hfold : foldAttributes? g node = some folded) :
    folded.AttributesOnce := by
  obtain ⟨count, _, hcount, -, -, -, rfl⟩ := foldAttributes?_eq_some.mp hfold
  intro count' hcount' entry hentry
  obtain rfl : count = count' := Option.some.inj (hcount.symm.trans hcount')
  rw [List.drop_take_self, List.zip_nil_right] at hentry
  cases hentry

theorem attributesOnce_foldOther (hfold : foldOther? g node = some folded) :
    folded.AttributesOnce := by
  obtain ⟨x, _, _, htakes, -, -, rfl⟩ := foldOther?_eq_some.mp hfold
  intro count hcount entry hentry
  obtain rfl := tensorOperands?_takesScalar htakes hcount
  rw [List.drop_eq_nil_of_le (by simp), List.zip_nil_right] at hentry
  cases hentry

/-- A visit keeps a run. -/
theorem sameRun_visit {state : Graph × Nat} (id : NodeId) (h : Foldable state.1 bound) :
    state.1.SameRun interpret bound (visit state id).1 ∧ Foldable (visit state id).1 bound := by
  have hattributes : state.1.SameRun interpret bound (applyFold foldAttributes? id state).1 ∧
      Foldable (applyFold foldAttributes? id state).1 bound := by
    refine sameRun_applyFold id h fun {node folded} hn hfold => ?_
    obtain ⟨count, _, hcount, -⟩ := foldAttributes?_eq_some.mp hfold
    exact replaces_of_alike (narrows_foldAttributes hfold) (attributesOnce_foldAttributes hfold)
      (.inl (by rw [hcount]; rfl)) (h.solved.nodes node hn)
      (alike_foldAttributes h.reads (h.once node hn) hfold)
  obtain ⟨hfirst, hfoldable⟩ := hattributes
  obtain ⟨hlast, hfoldable'⟩ := sameRun_applyFold id hfoldable fun {node folded} hn hfold =>
    have ⟨_, _, _, htakes, _⟩ := foldOther?_eq_some.mp hfold
    replaces_of_alike (narrows_foldOther hfold) (attributesOnce_foldOther hfold) (.inr htakes)
      (hfoldable.solved.nodes node hn) (alike_foldOther hfoldable.reads hfold)
  exact ⟨hfirst.trans hlast, hfoldable'⟩

theorem sameRun_foldl_visit (ids : List NodeId) {state : Graph × Nat}
    (h : Foldable state.1 bound) :
    state.1.SameRun interpret bound (ids.foldl visit state).1 := by
  induction ids generalizing state with
  | nil => exact .refl h.solved
  | cons id ids ih =>
    obtain ⟨hfirst, hrest⟩ := sameRun_visit id h
    exact hfirst.trans (ih hrest)

end Folding

/-! ## Top theorems -/

/-- Folding keeps every successful run of a graph in which no attribute is given twice. -/
theorem Graph.run_fold_exact (hg : g.verify = .ok ())
    (honce : g.AttributesOnce) (hplain : g.PlainConstants) {inputs outs : List Tensor}
    (hrun : g.run interpret inputs = .ok outs) :
    (Folding.run g).1.run interpret inputs = .ok outs ∧
      (Folding.run g).1.printed interpret inputs = g.printed interpret inputs := by
  obtain ⟨start, bound, values, hstart, hagree, hsolved, -, hvalues, houts⟩ :=
    exists_solvedBy (verify_eq_ok.mp hg).1 hrun
  have hsame : g.SameRun interpret bound (Folding.run g).1 :=
    @Folding.sameRun_foldl_visit bound g.nodeIds (g, 0) ⟨hsolved, honce, hplain⟩
  exact hsame.run hsolved hstart hagree hvalues houts

theorem Graph.run_fold_of_parse {text : String} (hg : Graph.parse text = .ok g)
    (honce : g.AttributesOnce) {inputs outs : List Tensor}
    (hrun : g.run interpret inputs = .ok outs) :
    (Folding.run g).1.run interpret inputs = .ok outs ∧
      (Folding.run g).1.printed interpret inputs = g.printed interpret inputs :=
  run_fold_exact (of_parse hg).1 honce (plainConstants_of_parse hg) hrun

end HybridGraph
