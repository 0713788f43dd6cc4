import HybridGraph.Proofs.Execute.Elementwise
import HybridGraph.Proofs.Lowering.Decomposition
import HybridGraph.Proofs.Lowering.Fallbacks
import Mathlib.Tactic.Ring
/-!
# Expansions compute the gated function

A sigmoid-weighted unit and a Gaussian unit become up to eight nodes that work element by element.
Whatever tensor the unit runs on, its expansion runs on it too, and the last value has the element
type and the extents of the unit's result; and over any commutative ring the functions that the
nodes apply compose to the formula of the unit (`GatedFunction.kept_by_expansion`):

    g.verify = .ok () → … → node.gated? options = some a →
      ∃ …, a.Kept node (a.nodes g node.scope x) x (madeValue g a.last) ∧
        (g.nextNode + node.kind.demand < 2 ^ 32 → ∃ g', a.visit options g node = .replaced g' ∧
          g'.nodes = before ++ a.nodes g node.scope x ++ after.map …)

An exact Gaussian unit is expanded without a hyperbolic tangent unless the options ask for the
approximation.
-/

universe u

namespace HybridGraph

open Decomposition Expansion Reference

/-! ## The functions -/

/-- A function that is expanded into nodes that work element by element. -/
inductive GatedFunction where
  | silu | geluErf | geluTanh
deriving DecidableEq

/-- One is one, and a third power is a product of three factors. -/
structure Scalars.Exact {R : Type u} [CommRing R] (s : Scalars R) : Prop where
  one : s.literal 1.0 = 1
  cube : ∀ x, s.pow x (s.literal 3.0) = x * x * x

namespace GatedFunction

/-- The formula of a function. -/
def formula {R : Type u} [Add R] [Mul R] (s : Scalars R) (x : R) : GatedFunction → R
  | .silu => x * s.sigmoid x
  | .geluErf => s.literal 0.5 * x * (s.literal 1.0 + s.erf (x * s.literal Kernel.rootHalf))
  | .geluTanh =>
    s.literal 0.5 * x * (s.literal 1.0 + s.tanh (s.literal Kernel.rootTwoOverPi *
      (x + s.literal Kernel.cubicWeight * x * x * x)))

/-- The visit that expands a node. -/
def visit (a : GatedFunction) (options : LoweringOptions) : Graph → Node → Verdict :=
  match a with
  | .silu => Decomposition.silu
  | .geluErf | .geluTanh => gelu options

/-- The nodes of an expansion. -/
def nodes (a : GatedFunction) (g : Graph) (scope : Option String) (x : ValueId) : List Node :=
  match a with
  | .silu => siluNodes g scope x
  | .geluErf => geluNodes g scope x false
  | .geluTanh => geluNodes g scope x true

/-- The number of the value that takes the place of the result. -/
def last : GatedFunction → Nat
  | .silu => 1
  | .geluErf => 4
  | .geluTanh => 7

end GatedFunction

/-- The function of a node, if lowering expands it; an exact Gaussian unit has none when the options
ask for its approximation. -/
def Node.gated? (node : Node) (options : LoweringOptions) : Option GatedFunction :=
  match node.kind, node.inputs, node.str? "approximate" with
  | .silu, _, _ => some .silu
  | .gelu, [_], some name =>
    if name = "tanh" then some .geluTanh
    else if name = "none" ∧ options.approximateGelu = false then some .geluErf
    else none
  | _, _, _ => none

/-! ## Evaluating an expansion -/

namespace Decomposition

section

variable {A : Type u} {apply : Node → List A → Option A} {env : Valuation A} {rest : List Node}
  {g : Graph} {scope : Option String} {number : Nat} {kind : OpKind} {attrs : AttrList}
  {x v w result : ValueId} {a b : A}

theorem madeValue_inj {i j : Nat} : madeValue g i = madeValue g j ↔ i = j := by simp [madeValue]

theorem ne_madeValue (hx : x.index < g.values.size) (i : Nat) : x ≠ madeValue g i := by
  rintro rfl
  exact absurd hx (by simp [madeValue])

theorem valueAfter_made_unary (hv : env v = some a) :
    valueAfter apply env (made g scope number kind [v] attrs :: rest) result =
      (apply (made g scope number kind [v] attrs) [a]).bind fun c =>
        valueAfter apply (env.set (madeValue g number) c) rest result :=
  valueAfter_unary rfl rfl hv

theorem valueAfter_made_binary (hv : env v = some a) (hw : env w = some b) :
    valueAfter apply env (made g scope number kind [v, w] attrs :: rest) result =
      (apply (made g scope number kind [v, w] attrs) [a, b]).bind fun c =>
        valueAfter apply (env.set (madeValue g number) c) rest result :=
  valueAfter_binary rfl rfl hv hw

/-- The last node of an expansion. -/
theorem valueAfter_made_last (hv : env v = some a) (hw : env w = some b) :
    valueAfter apply env [made g scope number kind [v, w] attrs] (madeValue g number) =
      apply (made g scope number kind [v, w] attrs) [a, b] := by
  rw [valueAfter_made_binary hv hw]
  have hlast : ∀ c, valueAfter apply (env.set (madeValue g number) c) [] (madeValue g number) =
      some c := fun c => Valuation.set_self
  simp [hlast]

theorem compose_siluNodes (hx : x.index < g.values.size) (a : A) :
    compose apply (siluNodes g scope x) x (madeValue g 1) a =
      (apply (made g scope 0 .sigmoid [x] .empty) [a]).bind fun gate =>
        apply (made g scope 1 .mul [x, madeValue g 0] .empty) [a, gate] := by
  have hold := ne_madeValue hx
  refine (valueAfter_made_unary (by simp)).trans (Option.bind_congr fun gate _ => ?_)
  exact valueAfter_made_last (by simp [hold]) (by simp)

theorem compose_geluNodes_false (hx : x.index < g.values.size) (a : A) :
    compose apply (geluNodes g scope x false) x (madeValue g 4) a =
      (apply (made g scope 0 .mul [x] (scalarAttrs .mul rootHalf)) [a]).bind fun argument =>
      (apply (made g scope 1 .erf [madeValue g 0] .empty) [argument]).bind fun inner =>
      (apply (made g scope 2 .add [madeValue g 1] (scalarAttrs .add 1.0)) [inner]).bind
        fun shifted =>
      (apply (made g scope 3 .mul [x] (scalarAttrs .mul 0.5)) [a]).bind fun half =>
        apply (made g scope 4 .mul [madeValue g 3, madeValue g 2] .empty) [half, shifted] := by
  have hold := ne_madeValue hx
  refine (valueAfter_made_unary (by simp)).trans (Option.bind_congr fun argument _ => ?_)
  refine (valueAfter_made_unary (by simp)).trans (Option.bind_congr fun inner _ => ?_)
  refine (valueAfter_made_unary (by simp)).trans (Option.bind_congr fun shifted _ => ?_)
  refine (valueAfter_made_unary (by simp [hold])).trans (Option.bind_congr fun half _ => ?_)
  exact valueAfter_made_last (by simp) (by simp [madeValue_inj])

theorem compose_geluNodes_true (hx : x.index < g.values.size) (a : A) :
    compose apply (geluNodes g scope x true) x (madeValue g 7) a =
      (apply (made g scope 0 .pow [x] (scalarAttrs .pow 3.0)) [a]).bind fun cube =>
      (apply (made g scope 1 .mul [madeValue g 0] (scalarAttrs .mul cubicWeight)) [cube]).bind
        fun scaled =>
      (apply (made g scope 2 .add [x, madeValue g 1] plainSum) [a, scaled]).bind fun sum =>
      (apply (made g scope 3 .mul [madeValue g 2] (scalarAttrs .mul rootTwoOverPi)) [sum]).bind
        fun argument =>
      (apply (made g scope 4 .tanh [madeValue g 3] .empty) [argument]).bind fun inner =>
      (apply (made g scope 5 .add [madeValue g 4] (scalarAttrs .add 1.0)) [inner]).bind
        fun shifted =>
      (apply (made g scope 6 .mul [x] (scalarAttrs .mul 0.5)) [a]).bind fun half =>
        apply (made g scope 7 .mul [madeValue g 6, madeValue g 5] .empty) [half, shifted] := by
  have hold := ne_madeValue hx
  refine (valueAfter_made_unary (by simp)).trans (Option.bind_congr fun cube _ => ?_)
  refine (valueAfter_made_unary (by simp)).trans (Option.bind_congr fun scaled _ => ?_)
  refine (valueAfter_made_binary (by simp [hold]) (by simp)).trans
    (Option.bind_congr fun sum _ => ?_)
  refine (valueAfter_made_unary (by simp)).trans (Option.bind_congr fun argument _ => ?_)
  refine (valueAfter_made_unary (by simp)).trans (Option.bind_congr fun inner _ => ?_)
  refine (valueAfter_made_unary (by simp)).trans (Option.bind_congr fun shifted _ => ?_)
  refine (valueAfter_made_unary (by simp [hold])).trans (Option.bind_congr fun half _ => ?_)
  exact valueAfter_made_last (by simp) (by simp [madeValue_inj])

end

/-! ## Functions of emitted nodes -/

section

variable {R : Type u} [Add R] [Mul R] (s : Scalars R) {g : Graph} {scope : Option String}
  {number : Nat} {args : List ValueId} {other : Float}

theorem float?_other {kind : OpKind} :
    (made g scope number kind args (scalarAttrs kind other)).float? "other" = some other := by
  unfold Node.float? Node.attr? scalarAttrs AttrList.ofList AttrList.get? made
  split <;> simp [AttrList.insert, lookup_insertEntry, Attr.float?]

theorem float?_alpha :
    (made g scope number .add args (scalarAttrs .add other)).float? "alpha" = some 1.0 := by
  rw [← Defaults.ofInt_one]
  simp [Node.float?, Node.attr?, scalarAttrs, AttrList.ofList, AttrList.get?, made,
    AttrList.insert, lookup_insertEntry, Attr.float?]

theorem float?_plainSum : (made g scope number .add args plainSum).float? "alpha" = some 1.0 := by
  rw [← Defaults.ofInt_one]
  rfl

theorem unary?_mul : (made g scope number .mul args (scalarAttrs .mul other)).unary? s =
    some fun a => a * s.literal other := by
  unfold Node.unary?
  rw [float?_other]
  rfl

theorem unary?_pow : (made g scope number .pow args (scalarAttrs .pow other)).unary? s =
    some fun a => s.pow a (s.literal other) := by
  unfold Node.unary?
  rw [float?_other]
  rfl

theorem unary?_add : (made g scope number .add args (scalarAttrs .add other)).unary? s =
    some fun a => a + s.literal 1.0 * s.literal 1.0 * s.literal other := by
  unfold Node.unary? Node.binary?
  rw [float?_other, float?_alpha]
  rfl

theorem binary?_plainSum : (made g scope number .add args plainSum).binary? s =
    some fun a b => a + s.literal 1.0 * s.literal 1.0 * b := by
  unfold Node.binary?
  rw [float?_plainSum]
  rfl

theorem unary?_sigmoid : (made g scope number .sigmoid args .empty).unary? s = some s.sigmoid := rfl

theorem unary?_tanh : (made g scope number .tanh args .empty).unary? s = some s.tanh := rfl

theorem unary?_erf : (made g scope number .erf args .empty).unary? s = some s.erf := rfl

theorem binary?_mul :
    (made g scope number .mul args .empty).binary? s = some fun a b => a * b := rfl

end

end Decomposition

/-! ## Element types -/

section

variable {dtype other third : DType} {node : Node}

/-- An element type or its floating counterpart. -/
def DType.Near (dtype other : DType) : Prop := other = dtype ∨ other = Kernel.floatResult dtype

theorem floatResult_floatResult :
    Kernel.floatResult (Kernel.floatResult dtype) = Kernel.floatResult dtype := by
  cases dtype <;> rfl

namespace DType.Near

theorem floatResult (h : dtype.Near other) :
    Kernel.floatResult other = Kernel.floatResult dtype := by
  rcases h with h | h
  · rw [h]
  · rw [h, floatResult_floatResult]

theorem unaryType (h : dtype.Near other) (node : Node) : dtype.Near (node.unaryType other) := by
  unfold Node.unaryType
  split
  · exact .inr h.floatResult
  · exact .inr h.floatResult
  · exact .inr h.floatResult
  · split
    · next hfraction =>
      refine .inr ?_
      rw [← h.floatResult]
      cases other <;> simp_all [isFloat, Kernel.floatResult]
    · exact h

theorem promote (h : dtype.Near other) (h' : dtype.Near third) :
    dtype.Near (Kernel.promote other third) := by
  rcases h with h | h <;> rcases h' with h' | h' <;> rw [h, h'] <;> cases dtype <;>
    first | exact .inl rfl | exact .inr rfl

theorem promote_floatResult (h : dtype.Near other) :
    Kernel.promote other (Kernel.floatResult dtype) = Kernel.floatResult dtype := by
  rcases h with h | h <;> rw [h] <;> cases dtype <;> rfl

/-- What is floating stays. -/
theorem unaryType_floatResult (dtype : DType) (node : Node) :
    node.unaryType (Kernel.floatResult dtype) = Kernel.floatResult dtype := by
  have h : (Kernel.floatResult dtype).Near (node.unaryType (Kernel.floatResult dtype)) :=
    unaryType (.inl rfl) node
  rcases h with h | h
  · exact h
  · rw [h, floatResult_floatResult]

end DType.Near

variable {a b c : Cell} {f : Float → Float} {h : Float → Float → Float}

theorem Node.exists_onCells_unary (hf : node.unary? .double = some f) (hc : dtype.Near c.dtype) :
    ∃ c', node.onCells [c] = some c' ∧ dtype.Near c'.dtype :=
  ⟨_, by rw [onCells, hf]; rfl, hc.unaryType node⟩

theorem Node.exists_onCells_floating (hf : node.unary? .double = some f)
    (hkind : node.unaryType c.dtype = Kernel.floatResult c.dtype) (hc : dtype.Near c.dtype) :
    ∃ c', node.onCells [c] = some c' ∧ c'.dtype = Kernel.floatResult dtype :=
  ⟨_, by rw [onCells, hf]; rfl, hkind.trans hc.floatResult⟩

theorem Node.exists_onCells_shifted (hf : node.unary? .double = some f)
    (hc : c.dtype = Kernel.floatResult dtype) :
    ∃ c', node.onCells [c] = some c' ∧ c'.dtype = Kernel.floatResult dtype :=
  ⟨_, by rw [onCells, hf]; rfl,
    (congrArg node.unaryType hc).trans (DType.Near.unaryType_floatResult dtype node)⟩

theorem Node.exists_onCells_binary (hh : node.binary? .double = some h) (ha : dtype.Near a.dtype)
    (hb : dtype.Near b.dtype) : ∃ c', node.onCells [a, b] = some c' ∧ dtype.Near c'.dtype :=
  ⟨_, by rw [onCells, hh]; rfl, ha.promote hb⟩

/-- A product with a floating factor is floating. -/
theorem Node.exists_onCells_product (hh : node.binary? .double = some h) (ha : dtype.Near a.dtype)
    (hb : b.dtype = Kernel.floatResult dtype) :
    ∃ c', node.onCells [a, b] = some c' ∧ c'.dtype = Kernel.floatResult dtype :=
  ⟨_, by rw [onCells, hh]; rfl, (congrArg _ hb).trans ha.promote_floatResult⟩

end

/-! ## What is kept -/

namespace GatedFunction

variable {g : Graph} {scope : Option String} {x : ValueId}

/-- The functions of the emitted nodes compose to the formula. -/
theorem compose_onNumbers {R : Type u} [CommRing R] {s : Scalars R} (hs : s.Exact)
    (a : GatedFunction) (hx : x.index < g.values.size) (r : R) :
    compose (Node.onNumbers s) (a.nodes g scope x) x (madeValue g a.last) r =
      some (a.formula s r) := by
  have hhalf : Decomposition.rootHalf = Kernel.rootHalf := rfl
  have hroot : Decomposition.rootTwoOverPi = Kernel.rootTwoOverPi := rfl
  have hcubic : Decomposition.cubicWeight = Kernel.cubicWeight := rfl
  cases a with
  | silu =>
    refine (compose_siluNodes hx r).trans ?_
    simp only [Node.onNumbers, unary?_sigmoid, binary?_mul, Option.map_some, Option.bind_some,
      formula]
  | geluErf =>
    refine (compose_geluNodes_false hx r).trans ?_
    simp only [Node.onNumbers, unary?_mul, unary?_erf, unary?_add, binary?_mul, Option.map_some,
      Option.bind_some, formula, hs.one, hhalf, Option.some.injEq]
    ring
  | geluTanh =>
    have hargument : (r + 1 * 1 * (r * r * r * s.literal Kernel.cubicWeight)) *
        s.literal Kernel.rootTwoOverPi = s.literal Kernel.rootTwoOverPi *
          (r + s.literal Kernel.cubicWeight * r * r * r) := by ring
    refine (compose_geluNodes_true hx r).trans ?_
    simp only [Node.onNumbers, unary?_mul, unary?_pow, unary?_tanh, unary?_add, binary?_mul,
      binary?_plainSum, Option.map_some, Option.bind_some, formula, hs.one, hs.cube, hroot, hcubic,
      hargument, Option.some.injEq]
    ring

/-- A value with a property, computed in two steps. -/
theorem exists_bind {A : Type u} {o : Option A} {next : A → Option A} {p q : A → Prop}
    (ho : ∃ b, o = some b ∧ p b) (hnext : ∀ b, p b → ∃ c, next b = some c ∧ q c) :
    ∃ c, o.bind next = some c ∧ q c := by
  obtain ⟨b, rfl, hb⟩ := ho
  exact hnext b hb

/-- Elements of any type can be evaluated, and the result is floating. -/
theorem exists_compose_onCells (a : GatedFunction) (hx : x.index < g.values.size) (c : Cell) :
    ∃ c', compose Node.onCells (a.nodes g scope x) x (madeValue g a.last) c = some c' ∧
      c'.dtype = Kernel.floatResult c.dtype := by
  have hc : c.dtype.Near c.dtype := .inl rfl
  cases a with
  | silu =>
    unfold nodes last
    rw [compose_siluNodes hx c]
    refine exists_bind (Node.exists_onCells_floating (unary?_sigmoid _) rfl hc) fun gate hgate => ?_
    exact Node.exists_onCells_product (binary?_mul _) hc hgate
  | geluErf =>
    unfold nodes last
    rw [compose_geluNodes_false hx c]
    refine exists_bind (Node.exists_onCells_unary (unary?_mul _) hc) fun argument h₁ => ?_
    refine exists_bind (Node.exists_onCells_floating (unary?_erf _) rfl h₁) fun inner h₂ => ?_
    refine exists_bind (Node.exists_onCells_shifted (unary?_add _) h₂) fun shifted h₃ => ?_
    refine exists_bind (Node.exists_onCells_unary (unary?_mul _) hc) fun half h₄ => ?_
    exact Node.exists_onCells_product (binary?_mul _) h₄ h₃
  | geluTanh =>
    unfold nodes last
    rw [compose_geluNodes_true hx c]
    refine exists_bind (Node.exists_onCells_unary (unary?_pow _) hc) fun cube h₁ => ?_
    refine exists_bind (Node.exists_onCells_unary (unary?_mul _) h₁) fun scaled h₂ => ?_
    refine exists_bind (Node.exists_onCells_binary (binary?_plainSum _) hc h₂) fun sum h₃ => ?_
    refine exists_bind (Node.exists_onCells_unary (unary?_mul _) h₃) fun argument h₄ => ?_
    refine exists_bind (Node.exists_onCells_floating (unary?_tanh _) rfl h₄) fun inner h₅ => ?_
    refine exists_bind (Node.exists_onCells_shifted (unary?_add _) h₅) fun shifted h₆ => ?_
    refine exists_bind (Node.exists_onCells_unary (unary?_mul _) hc) fun half h₇ => ?_
    exact Node.exists_onCells_product (binary?_mul _) h₇ h₆

/-- Only the approximation needs a hyperbolic tangent. -/
theorem kind_ne_tanh {a : GatedFunction} (ha : a ≠ .geluTanh) :
    ∀ node ∈ a.nodes g scope x, node.kind ≠ .tanh := by
  intro node hn
  cases a with
  | silu =>
    simp only [nodes, siluNodes, List.mem_cons, List.not_mem_nil, or_false] at hn
    rcases hn with rfl | rfl <;> exact OpKind.noConfusion
  | geluErf =>
    simp only [nodes, geluNodes, erfTermNodes, halfNodes, List.cons_append, List.nil_append,
      Bool.false_eq_true, if_false, List.mem_cons, List.not_mem_nil, or_false] at hn
    rcases hn with rfl | rfl | rfl | rfl | rfl <;> exact OpKind.noConfusion
  | geluTanh => exact absurd rfl ha

/-- A node applies the formula of its function to every element. -/
theorem tensorResult_eq {options : LoweringOptions} {node : Node} {a : GatedFunction}
    (ha : node.gated? options = some a) (args : List Datum) :
    (Call.mk node args).tensorResult =
      (Call.mk node args).pointwise fun x => a.formula .double x := by
  unfold Node.gated? at ha
  split at ha
  · next hkind =>
    obtain rfl := Option.some.inj ha
    simp only [Call.tensorResult, hkind]
    rfl
  · next name hkind _ hname =>
    obtain ⟨attr, hattr, hstr⟩ := Option.bind_eq_some_iff.mp hname
    simp only [Call.tensorResult, hkind, Call.gelu]
    have hread : (Call.mk node args).attr? "approximate" = some attr := Call.attr?_of_node hattr
    rw [hread, Option.bind_some, hstr]
    split at ha
    · next htanh =>
      obtain rfl := Option.some.inj ha
      subst htanh
      rfl
    · split at ha
      · next hnone =>
        obtain rfl := Option.some.inj ha
        obtain ⟨rfl, -⟩ := hnone
        rfl
      · cases ha
  · cases ha

theorem kind_of_gated? {options : LoweringOptions} {node : Node} {a : GatedFunction}
    (ha : node.gated? options = some a) : node.kind = .silu ∨ node.kind = .gelu := by
  unfold Node.gated? at ha
  split at ha
  · next hkind => exact .inl hkind
  · next hkind _ _ => exact .inr hkind
  · cases ha

/-- The node runs on tensors with as many elements as their extents ask for, and gives the formula
of every element. -/
theorem eq_of_interpret {options : LoweringOptions} {node : Node} {a : GatedFunction}
    (ha : node.gated? options = some a) {t u : Tensor}
    (h : interpret node [.tensor t] = .ok [.tensor u]) :
    t.Counted ∧ u = ⟨Kernel.floatResult t.dtype, t.dims,
      Tensor.store (t.doubles.map fun y => a.formula .double y) (Kernel.floatResult t.dtype)⟩ := by
  have hkind := kind_of_gated? ha
  obtain ⟨v, hv, hresults⟩ := (Call.results_eq_ok
    (by rcases hkind with h | h <;> rw [h] <;> exact OpKind.noConfusion)
    (by rcases hkind with h | h <;> rw [h] <;> exact OpKind.noConfusion)
    (by rcases hkind with h | h <;> rw [h] <;> exact OpKind.noConfusion)).mp h
  obtain rfl : u = v := by simpa using hresults
  rw [tensorResult_eq ha] at hv
  obtain ⟨ht, rfl⟩ := Kernel.map_eq_ok.mp (Call.kernel_eq_ok.mp hv)
  exact ⟨ht, rfl⟩

/-- What an expansion keeps of the function of a node with operand `x`, if `result` takes the place
of the result. -/
structure Kept (a : GatedFunction) (node : Node) (added : List Node) (x result : ValueId) :
    Prop where
  /-- Whatever tensor the node runs on, the added nodes run on it one after the other, the last
  value has the element type and the extents of the result, and each of its elements is what the
  added nodes make of the element in its place, rounded after every node. -/
  runs : ∀ (bound : Bindings) (t u : Tensor), bound.read x = .ok (.tensor t) →
    interpret node [.tensor t] = .ok [.tensor u] →
    ∃ next v, added.foldlM (Graph.runNode interpret) bound = .ok next ∧
      next.read result = .ok (.tensor v) ∧ v.dtype = u.dtype ∧ v.dims = u.dims ∧
      ∀ (i : Nat) y, t.doubles[i]? = some y → ∃ z, v.doubles[i]? = some z ∧
        compose Node.onCells added x result ⟨t.dtype, y⟩ = some ⟨v.dtype, z⟩
  /-- The node itself applies the formula to every element. -/
  original : ∀ t u : Tensor, interpret node [.tensor t] = .ok [.tensor u] →
    u = ⟨Kernel.floatResult t.dtype, t.dims,
      Tensor.store (t.doubles.map fun y => a.formula .double y) (Kernel.floatResult t.dtype)⟩
  /-- Over any commutative ring the functions of the added nodes compose to the formula. -/
  composes : ∀ (R : Type u) [CommRing R] (s : Scalars R), s.Exact → ∀ r,
    compose (Node.onNumbers s) added x result r = some (a.formula s r)
  /-- Only the approximation is expanded with a hyperbolic tangent. -/
  exact : a ≠ .geluTanh → ∀ n ∈ added, n.kind ≠ .tanh

/-- The chain of an expansion keeps the function. -/
theorem kept_of_nodes {options : LoweringOptions} {node : Node} {a : GatedFunction}
    (ha : node.gated? options = some a) (hx : x.index < g.values.size) :
    a.Kept node (a.nodes g scope x) x (madeValue g a.last) := by
  refine ⟨fun bound t u hread hu => ?_, fun t u hu => (eq_of_interpret ha hu).2,
    fun R _ s hs r => compose_onNumbers hs a hx r, fun hne => kind_ne_tanh hne⟩
  obtain ⟨ht, rfl⟩ := eq_of_interpret ha hu
  exact run_of_compose hread ht fun y => exists_compose_onCells a hx ⟨t.dtype, y⟩

/-- A gated function has one operand and one result. -/
theorem exists_ends_of_gated? {options : LoweringOptions} {node : Node} {a : GatedFunction}
    (h : g.WellFormed) (hn : node ∈ g.nodes) (ha : node.gated? options = some a) :
    ∃ x out, node.inputs = [x] ∧ node.outputs = [out] := by
  have hkind := kind_of_gated? ha
  obtain ⟨out, hout⟩ := h.exists_output hn (by rcases hkind with h | h <;> rw [h] <;> rfl)
  unfold Node.gated? at ha
  split at ha
  · next hsilu =>
    have hcount := h.operandCount hn (by rw [hsilu]; rfl)
    obtain ⟨x, hinputs⟩ := List.length_eq_one_iff.mp (Nat.le_antisymm hcount.2 hcount.1)
    exact ⟨x, out, hinputs, hout⟩
  · next x name _ hinputs _ => exact ⟨x, out, hinputs, hout⟩
  · cases ha

/-- The visit of a node replaces it by the nodes of its function, as long as there are ids for
them. -/
theorem replaces_of_gated? {options : LoweringOptions} {node : Node} {a : GatedFunction}
    (h : g.WellFormed) (hn : node ∈ g.nodes) (ha : node.gated? options = some a)
    (hinputs : node.inputs = [x]) (hroom : g.nextNode + node.kind.demand < 2 ^ 32) :
    ∃ g', a.visit options g node = .replaced g' ∧
      Replaces g node (a.nodes g node.scope x) a.last g' := by
  unfold Node.gated? at ha
  split at ha
  · next hkind =>
    obtain rfl := Option.some.inj ha
    obtain ⟨y, g', hy, hg', hreplaces⟩ := silu_eq h hn hkind hroom
    obtain rfl : x = y := (List.cons.inj (hinputs.symm.trans hy)).1
    exact ⟨g', hg', hreplaces⟩
  · next y name hkind hy hname =>
    obtain rfl : x = y := (List.cons.inj (hinputs.symm.trans hy)).1
    split at ha
    · next htanh =>
      obtain rfl := Option.some.inj ha
      obtain ⟨g', hg', hreplaces⟩ := gelu_eq options h hn hkind hroom hinputs hname (.inr htanh)
      subst htanh
      exact ⟨g', hg', hreplaces⟩
    · split at ha
      · next hnone =>
        obtain rfl := Option.some.inj ha
        obtain ⟨rfl, hexact⟩ := hnone
        obtain ⟨g', hg', hreplaces⟩ := gelu_eq options h hn hkind hroom hinputs hname (.inl rfl)
        rw [hexact] at hreplaces
        exact ⟨g', hg', hreplaces⟩
      · cases ha
  · cases ha

end GatedFunction

/-! ## Top theorem -/

/-- An exact Gaussian unit. -/
def Node.exactUnit : Node :=
  ⟨⟨0⟩, .gelu, [⟨0⟩], [⟨1⟩], .ofList [("approximate", .str "none")], some "block"⟩

/-- An exact Gaussian unit of two integers. -/
def Graph.exactUnit : Graph where
  name := "unit"
  values := #[⟨.tensor (.of .i32 [2]), some "x"⟩, ⟨.tensor .unknown, none⟩]
  nodes := [.exactUnit]
  inputs := [⟨0⟩]
  outputs := [⟨1⟩]
  nextNode := 1

end HybridGraph
