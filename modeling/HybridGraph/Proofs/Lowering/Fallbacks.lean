import HybridGraph.Proofs.Execute.Attributes
import HybridGraph.Proofs.Lowering.Simplification
/-!
# Defaults are what the interpreter falls back to

A default that is written out says what the interpreter does without it, kind by kind and attribute
by attribute, and a wrapped axis is the axis that it stands for.  So a node computes the same,
errors included, before and after its defaults are written out, if the rank declared for its first
operand is true:

    (name, value) ∈ ofKind call.node.kind → call.attr? name = none →
      (call.setAttr name value).results = call.results                        (results_setAttr)
    args.length = node.inputs.length → … →
      interpret (normalize g node) args = interpret node args                 (interpret_normalize)
-/

namespace HybridGraph.Defaults

open Reference Call

variable {call : Call} {kind : OpKind} {name other : String} {value : Attr}

/-! ## One default for each name -/

theorem nodup_names (kind : OpKind) : ((ofKind kind).map Prod.fst).Nodup := by
  cases kind <;> decide

theorem eq_of_mem_ofKind {a : Attr} (he : (name, value) ∈ ofKind kind)
    (ha : (name, a) ∈ ofKind kind) : value = a :=
  congrArg Prod.snd (List.inj_on_of_nodup_map (nodup_names kind) he ha rfl)

/-! ## Readers -/

/-- A number that has a default reads alike after some default was set. -/
theorem float_setAttr {default : Float} {a : Attr} (he : (name, value) ∈ ofKind kind)
    (habsent : call.attr? name = none) (hother : (other, a) ∈ ofKind kind)
    (ha : a.float? = some default) :
    (call.setAttr name value).float other default = call.float other default := by
  refine setAttr_float habsent ?_
  rintro rfl
  rw [eq_of_mem_ofKind he hother, ha]

/-- A truth value that is false by default reads alike after some default was set. -/
theorem flag_setAttr (he : (name, value) ∈ ofKind kind) (habsent : call.attr? name = none)
    (hother : (other, .bool false) ∈ ofKind kind) :
    (call.setAttr name value).flag other = call.flag other := by
  refine setAttr_flag habsent ?_
  rintro rfl
  rw [eq_of_mem_ofKind he hother]
  rfl

/-- An axis that has a default reads alike after some default was set. -/
theorem bound_setAttr {default : Int} (he : (name, value) ∈ ofKind kind)
    (habsent : call.attr? name = none) (hother : (other, .int default) ∈ ofKind kind) :
    (((call.setAttr name value).attr? other).bind Attr.int?).getD default =
      ((call.attr? other).bind Attr.int?).getD default := by
  rw [attr?_setAttr]
  by_cases h : other = name
  · subst h
    rw [if_pos rfl, habsent, eq_of_mem_ofKind he hother]
    rfl
  · rw [if_neg h]

/-! ## Operations without an attribute -/

/-- The default weight, an integer, is the number that the interpreter falls back to. -/
theorem ofInt_one : Number.ofInt 1 = 1.0 := rfl

theorem gelu_setAttr (habsent : call.attr? "approximate" = none) :
    (call.setAttr "approximate" (.str "none")).gelu = call.gelu := by
  unfold gelu
  rw [attr?_setAttr, if_pos rfl, habsent]
  rfl

theorem clamp_setAttr (habsent : call.attr? name = none) :
    (call.setAttr name .none).clamp = call.clamp := by
  unfold clamp
  rw [setAttr_float? habsent rfl, setAttr_float? habsent rfl]
  rfl

theorem constantPad_setAttr (he : (name, value) ∈ ofKind .constantPad)
    (habsent : call.attr? name = none) :
    (call.setAttr name value).constantPad = call.constantPad := by
  have hvalue : (call.setAttr name value).float "value" 0.0 = call.float "value" 0.0 :=
    float_setAttr he habsent (.head _) rfl
  have hpad : "pad" ≠ name := by
    rintro rfl
    simp [ofKind] at he
  unfold constantPad
  rw [setAttr_ints hpad, hvalue]
  rfl

theorem reduce_setAttr (habsent : call.attr? "keepdim" = none) (mean : Bool) :
    (call.setAttr "keepdim" (.bool false)).reduce mean = call.reduce mean := by
  have haxes : ∀ rank, (call.setAttr "keepdim" (.bool false)).reductionAxes rank =
      call.reductionAxes rank := fun rank => setAttr_reductionAxes (by decide)
  have hkeep : (call.setAttr "keepdim" (.bool false)).flag "keepdim" = call.flag "keepdim" :=
    setAttr_flag habsent fun _ => rfl
  have hdtype : (call.setAttr "keepdim" (.bool false)).dtype? "dtype" = call.dtype? "dtype" :=
    setAttr_dtype? (by decide)
  unfold reduce
  simp only [haxes, hkeep, hdtype, setAttr_tensor, setAttr_fail, setAttr_kernel]

theorem flatten_setAttr (he : (name, value) ∈ ofKind .flatten)
    (habsent : call.attr? name = none) : (call.setAttr name value).flatten = call.flatten := by
  have hfirst := bound_setAttr he habsent (.head _)
  have hlast := bound_setAttr he habsent (.tail _ (.head _))
  unfold flatten
  simp only [setAttr_tensor, setAttr_fail, setAttr_kernel, hfirst, hlast]

/-- What a default says is what the interpreter does without it. -/
theorem tensorResult_setAttr (he : (name, value) ∈ ofKind call.node.kind)
    (habsent : call.attr? name = none) :
    (call.setAttr name value).tensorResult = call.tensorResult := by
  unfold tensorResult
  rw [setAttr_kind]
  generalize call.node.kind = kind at he
  cases kind
  case leakyRelu =>
    have hslope : (call.setAttr name value).float "negative_slope" 0.01 =
        call.float "negative_slope" 0.01 := float_setAttr he habsent (.head _) rfl
    simp only [hslope, setAttr_pointwise]
  case elu =>
    have hone : ∀ other, (other, .float 1.0) ∈ ofKind .elu →
        (call.setAttr name value).float other 1.0 = call.float other 1.0 :=
      fun _ hother => float_setAttr he habsent hother rfl
    simp only [hone "alpha" (.head _), hone "scale" (.tail _ (.head _)),
      hone "input_scale" (.tail _ (.tail _ (.head _))), setAttr_pointwise]
  case hardtanh =>
    have hlow : (call.setAttr name value).float "min_val" (-1.0) = call.float "min_val" (-1.0) :=
      float_setAttr he habsent (.head _) rfl
    have hhigh : (call.setAttr name value).float "max_val" 1.0 = call.float "max_val" 1.0 :=
      float_setAttr he habsent (.tail _ (.head _)) rfl
    simp only [hlow, hhigh, setAttr_pointwise]
  case add | sub =>
    obtain ⟨rfl, rfl⟩ : name = "alpha" ∧ value = .int 1 := by simpa [ofKind] using he
    have halpha : (call.setAttr "alpha" (.int 1)).float "alpha" 1.0 = call.float "alpha" 1.0 :=
      float_setAttr he habsent (.head _) (congrArg some ofInt_one)
    simp only [halpha, setAttr_binary (show "other" ≠ "alpha" by decide)]
  case flatten => exact flatten_setAttr he habsent
  case sum | mean =>
    obtain ⟨rfl, rfl⟩ : name = "keepdim" ∧ value = .bool false := by simpa [ofKind] using he
    exact reduce_setAttr habsent _
  case dropout =>
    have htrain : (call.setAttr name value).flag "train" = call.flag "train" :=
      flag_setAttr he habsent (.tail _ (.head _))
    simp only [htrain, setAttr_tensor, setAttr_fail]
  case constantPad => exact constantPad_setAttr he habsent
  case clamp =>
    have hvalue : value = .none := by
      simp only [ofKind, List.mem_cons, Prod.mk.injEq, List.not_mem_nil, or_false] at he
      tauto
    rw [hvalue]
    exact clamp_setAttr habsent
  case gelu =>
    obtain ⟨rfl, rfl⟩ : name = "approximate" ∧ value = .str "none" := by simpa [ofKind] using he
    exact gelu_setAttr habsent
  all_goals cases he

theorem results_setAttr (he : (name, value) ∈ ofKind call.node.kind)
    (habsent : call.attr? name = none) : (call.setAttr name value).results = call.results := by
  unfold results
  rw [setAttr_kind, tensorResult_setAttr he habsent]
  split
  · next hkind =>
    rw [hkind] at he
    cases he
  · next hkind =>
    rw [hkind] at he
    cases he
  · rfl
  · rfl

/-! ## Wrapped axes -/

theorem axisIndex_add {axis : Int} {rank : Nat} (hneg : axis < 0) (hle : 0 ≤ axis + rank) :
    Kernel.axisIndex (axis + rank) rank = Kernel.axisIndex axis rank := by
  have hrange : ¬ (axis + rank < 0 ∨ ((Nat.max rank 1 : Nat) : Int) ≤ axis + rank) := by
    have hmax : rank ≤ Nat.max rank 1 := Nat.le_max_left _ _
    omega
  unfold Kernel.axisIndex
  rw [if_neg (Int.not_lt.mpr hle), if_pos hneg]
  dsimp only
  rw [if_neg hrange, if_neg hrange]

section

variable {axis : Int} {rank : Nat}

/-- An axis is the same one after it, or another, was wrapped. -/
theorem axis_setAttr {β : Type} {k : Nat → Except ExecError β}
    (hheld : call.attr? name = some (.int axis)) (hneg : axis < 0) (hle : 0 ≤ axis + rank) :
    ((call.setAttr name (.int (axis + rank))).int other >>= fun n => call.axis n rank >>= k) =
      call.int other >>= fun n => call.axis n rank >>= k := by
  by_cases h : other = name
  · subst h
    have hset : (call.setAttr other (.int (axis + rank))).int other = .ok (axis + rank) := by
      unfold int
      rw [attr?_setAttr, if_pos rfl]
      rfl
    have hread : call.int other = .ok axis := by
      unfold int
      rw [hheld]
      rfl
    have hsame : call.axis (axis + rank) rank = call.axis axis rank :=
      congrArg call.kernel (axisIndex_add hneg hle)
    rw [hset, hread]
    show (call.axis (axis + rank) rank >>= k) = call.axis axis rank >>= k
    rw [hsame]
  · rw [setAttr_int h]

variable (hheld : call.attr? name = some (.int axis)) (hneg : axis < 0) (hle : 0 ≤ axis + rank)
  (hrank : ∀ t, call.tensor 0 = .ok t → t.rank = rank)

include hheld hneg hle hrank

theorem softmax_setAttr (hname : "dtype" ≠ name) :
    (call.setAttr name (.int (axis + rank))).softmax = call.softmax := by
  unfold softmax
  refine Outcome.bind_congr fun x hx => ?_
  rw [setAttr_dtype? hname, hrank x hx]
  exact Outcome.bind_congr fun _ _ => axis_setAttr hheld hneg hle

theorem cumsum_setAttr (hname : "dtype" ≠ name) :
    (call.setAttr name (.int (axis + rank))).cumsum = call.cumsum := by
  unfold cumsum
  refine Outcome.bind_congr fun x hx => ?_
  rw [setAttr_dtype? hname, hrank x hx]
  exact Outcome.bind_congr fun _ _ => axis_setAttr hheld hneg hle

theorem transpose_setAttr :
    (call.setAttr name (.int (axis + rank))).transpose = call.transpose := by
  unfold transpose
  refine Outcome.bind_congr fun x hx => ?_
  rw [hrank x hx]
  refine (axis_setAttr hheld hneg hle).trans ?_
  refine Outcome.bind_congr fun _ _ => Outcome.bind_congr fun _ _ => ?_
  exact axis_setAttr hheld hneg hle

/-- Wrapping an axis of a tensor of known rank does not change what a node computes. -/
theorem results_setAttr_axis (hname : name ∈ axisNames call.node.kind) :
    (call.setAttr name (.int (axis + rank))).results = call.results := by
  unfold results tensorResult
  rw [setAttr_kind]
  generalize call.node.kind = kind at hname
  have hdtype : "dtype" ≠ name := by
    rintro rfl
    cases kind <;> simp [axisNames] at hname
  cases kind
  case softmax => rw [softmax_setAttr hheld hneg hle hrank hdtype]
  case cumsum => rw [cumsum_setAttr hheld hneg hle hrank hdtype]
  case transpose => rw [transpose_setAttr hheld hneg hle hrank]
  all_goals cases hname

end

/-! ## Nodes -/

section

variable {g : Graph} {node : Node} {args : List Datum}

/-- A node without attribute operands reads its own attributes only. -/
theorem attr?_of_isFolded (hlen : args.length = node.inputs.length)
    (hfolded : isFolded node = true) (name : String) :
    (Call.mk node args).attr? name = node.attr? name := by
  have hoperand : (Call.mk node args).attrOperand? name = none := by
    unfold attrOperand?
    unfold isFolded at hfolded
    cases hcount : node.kind.tensorOperands? with
    | none => rfl
    | some count =>
      rw [hcount] at hfolded
      have hle : args.length ≤ count := by
        rw [hlen]
        exact of_decide_eq_true hfolded
      cases node.kind.attributeNames.findIdx? (· == name) with
      | none => rfl
      | some place => exact List.getElem?_eq_none (Nat.le_add_right_of_le hle)
  unfold attr?
  rw [hoperand]
  cases node.attr? name <;> rfl

theorem interpret_addDefault {entry : String × Attr} (hlen : args.length = node.inputs.length)
    (hfolded : isFolded node = true) (he : entry ∈ ofKind node.kind) :
    interpret (addDefault node entry) args = interpret node args := by
  unfold addDefault
  split
  · rfl
  · next habsent =>
    refine @results_setAttr ⟨node, args⟩ entry.1 entry.2 he ?_
    rw [attr?_of_isFolded hlen hfolded]
    exact Option.not_isSome_iff_eq_none.mp habsent

theorem interpret_foldl_addDefault (entries : List (String × Attr))
    (hlen : args.length = node.inputs.length) (hfolded : isFolded node = true)
    (hsub : entries ⊆ ofKind node.kind) :
    interpret (entries.foldl addDefault node) args = interpret node args := by
  induction entries generalizing node with
  | nil => rfl
  | cons entry entries ih =>
    obtain ⟨hentry, hrest⟩ := List.cons_subset.mp hsub
    have hfirst := interpret_addDefault hlen hfolded hentry
    obtain ⟨attrs, hattrs⟩ := addDefault_eq node entry
    rw [hattrs] at hfirst
    rw [List.foldl_cons, hattrs, ← hfirst]
    exact ih hlen hfolded hrest

/-- Only an integer attribute reads as a negative integer. -/
theorem attr?_of_int? {name : String} {axis : Int} (haxis : node.int? name = some axis)
    (hneg : axis < 0) : node.attr? name = some (.int axis) := by
  obtain ⟨a, ha, hint⟩ := Option.bind_eq_some_iff.mp haxis
  rw [ha]
  cases a with
  | int n =>
    obtain rfl := Option.some.inj hint
    rfl
  | bool b =>
    obtain rfl := Option.some.inj hint
    cases b <;> exact absurd hneg (by decide)
  | _ => cases hint

theorem interpret_wrapAxis {rank : Nat} {name : String} (hlen : args.length = node.inputs.length)
    (hfolded : isFolded node = true) (hname : name ∈ axisNames node.kind)
    (hrank : ∀ t, args.head? = some (.tensor t) → t.rank = rank) :
    interpret (wrapAxis rank node name) args = interpret node args := by
  unfold wrapAxis
  split
  · next axis haxis =>
    split
    · next hrange =>
      obtain ⟨hneg, hle⟩ := hrange
      refine @results_setAttr_axis ⟨node, args⟩ name axis rank ?_ hneg hle ?_ hname
      · rw [attr?_of_isFolded hlen hfolded, attr?_of_int? haxis hneg]
      · exact fun t ht => hrank t (head?_of_tensor ht)
    · rfl
  · rfl

theorem interpret_foldl_wrapAxis {rank : Nat} (names : List String)
    (hlen : args.length = node.inputs.length) (hfolded : isFolded node = true)
    (hsub : names ⊆ axisNames node.kind)
    (hrank : ∀ t, args.head? = some (.tensor t) → t.rank = rank) :
    interpret (names.foldl (wrapAxis rank) node) args = interpret node args := by
  induction names generalizing node with
  | nil => rfl
  | cons name names ih =>
    obtain ⟨hname, hrest⟩ := List.cons_subset.mp hsub
    have hfirst := interpret_wrapAxis hlen hfolded hname hrank
    obtain ⟨attrs, hattrs⟩ := wrapAxis_eq rank node name
    rw [hattrs] at hfirst
    rw [List.foldl_cons, hattrs, ← hfirst]
    exact ih hlen hfolded hrest

/-- Writing the defaults of a node out does not change what it computes. -/
theorem interpret_normalize (hlen : args.length = node.inputs.length)
    (hrank : ∀ rank t, operandRank? g node = some rank → args.head? = some (.tensor t) →
      t.rank = rank) :
    interpret (normalize g node) args = interpret node args := by
  unfold normalize
  split
  · next hfolded =>
    have hfilled := interpret_foldl_addDefault (ofKind node.kind) hlen hfolded (List.Subset.refl _)
    obtain ⟨attrs, hattrs⟩ := foldl_eq addDefault_eq (ofKind node.kind) node
    rw [hattrs] at hfilled
    dsimp only
    rw [hattrs]
    split
    · next rank hknown =>
      rw [← hfilled]
      exact @interpret_foldl_wrapAxis { node with attrs } args rank (axisNames node.kind) hlen
        hfolded (List.Subset.refl _) fun t ht => hrank rank t hknown ht
    · exact hfilled
  · rfl

end

end HybridGraph.Defaults
