import HybridGraph.Proofs.Execute.Attributes
import HybridGraph.Proofs.Execute.Agreement
import HybridGraph.Proofs.Kernel.Stored
/-!
# Nodes that work element by element

On tensors of equal extents a sum, a product, a power or one of the functions `sigmoid`, `tanh` and
`erf` works on each element alone.  `Node.unary?` and `Node.binary?` give the function of numbers
that such a node applies.  The numbers may be any that can be added and multiplied; the other
functions are an argument (`Scalars`).

One evaluator reads a list of such nodes in two ways.  On numbers it gives the function that the
nodes compose to; on cells, an element type and a double, it also keeps the element types and
rounds after every node.  What the interpreter binds is what evaluation on cells says of each
element:

    evaluate Node.onCells env nodes = some env' →
      ∃ next, nodes.foldlM (runNode interpret) bound = .ok next ∧ …               (run_of_evaluate)
-/

universe u

namespace HybridGraph

/-! ## Functions of numbers -/

/-- What nodes compute with besides sums and products. -/
structure Scalars (R : Type u) where
  literal : Float → R
  sigmoid : R → R
  tanh : R → R
  erf : R → R
  pow : R → R → R

/-- The functions that the interpreter uses. -/
def Scalars.double : Scalars Float := ⟨id, Kernel.sigmoid, Float.tanh, Kernel.erf, Float.pow⟩

namespace Node

section

variable {R : Type u} [Add R] [Mul R] (s : Scalars R)

/-- The function of two numbers that a node applies. -/
def binary? (node : Node) : Option (R → R → R) :=
  match node.kind with
  | .mul => some fun a b => a * b
  | .pow => some s.pow
  | .add =>
    (node.float? "alpha").map fun alpha a b => a + s.literal 1.0 * s.literal alpha * b
  | _ => none

/-- The function of one number that a node applies; it may hold the second number itself. -/
def unary? (node : Node) : Option (R → R) :=
  match node.kind with
  | .sigmoid => some s.sigmoid
  | .tanh => some s.tanh
  | .erf => some s.erf
  | _ =>
    (node.binary? s).bind fun f =>
      (node.float? "other").map fun other a => f a (s.literal other)

/-- What a node makes of numbers. -/
def onNumbers (node : Node) : List R → Option R
  | [a] => (node.unary? s).map fun f => f a
  | [a, b] => (node.binary? s).map fun f => f a b
  | _ => none

end

/-! ## Cells -/

/-- The element type of the result for one operand. -/
def unaryType (node : Node) (dtype : DType) : DType :=
  match node.kind with
  | .sigmoid | .tanh | .erf => Kernel.floatResult dtype
  | _ => if (node.float? "other").any Number.hasFraction && !dtype.isFloat then .f32 else dtype

end Node

/-- An element of a tensor: its type and its value. -/
structure Cell where
  dtype : DType
  value : Float

/-- The cell in which a number is stored. -/
def Cell.stored (dtype : DType) (x : Float) : Cell := ⟨dtype, dtype.rounded x⟩

/-- What a node makes of elements that lie at the same place. -/
def Node.onCells (node : Node) : List Cell → Option Cell
  | [a] => (node.unary? .double).map fun f => .stored (node.unaryType a.dtype) (f a.value)
  | [a, b] =>
    (node.binary? .double).map fun f => .stored (Kernel.promote a.dtype b.dtype) (f a.value b.value)
  | _ => none

/-! ## Evaluation -/

/-- Values of any sort under ids. -/
abbrev Valuation (A : Type u) := ValueId → Option A

/-- A valuation with the value of one id set. -/
def Valuation.set {A : Type u} (env : Valuation A) (v : ValueId) (a : A) : Valuation A :=
  fun w => if w = v then some a else env w

@[simp]
theorem Valuation.set_self {A : Type u} {env : Valuation A} {v : ValueId} {a : A} :
    env.set v a v = some a := if_pos rfl

@[simp]
theorem Valuation.set_of_ne {A : Type u} {env : Valuation A} {v w : ValueId} {a : A} (h : w ≠ v) :
    env.set v a w = env w := if_neg h

/-- Evaluates nodes with one result in order. -/
def evaluate {A : Type u} (apply : Node → List A → Option A) :
    Valuation A → List Node → Option (Valuation A)
  | env, [] => some env
  | env, node :: rest =>
    (node.inputs.mapM env).bind fun args =>
      node.output?.bind fun out =>
        (apply node args).bind fun a => evaluate apply (env.set out a) rest

/-- The value of an id once nodes have been evaluated. -/
def valueAfter {A : Type u} (apply : Node → List A → Option A) (env : Valuation A)
    (nodes : List Node) (result : ValueId) : Option A :=
  (evaluate apply env nodes).bind fun env => env result

/-- What nodes make of a value of `x`. -/
def compose {A : Type u} (apply : Node → List A → Option A) (nodes : List Node)
    (x result : ValueId) (a : A) : Option A :=
  valueAfter apply (Valuation.set (fun _ => none) x a) nodes result

section

variable {A : Type u} {apply : Node → List A → Option A} {env : Valuation A} {rest : List Node}
  {result out v w : ValueId} {a b : A} {node : Node}

theorem valueAfter_unary (hinputs : node.inputs = [v]) (hout : node.outputs = [out])
    (hv : env v = some a) : valueAfter apply env (node :: rest) result =
      (apply node [a]).bind fun c => valueAfter apply (env.set out c) rest result := by
  simp [valueAfter, evaluate, hinputs, Node.output?, hout, hv, Option.bind_assoc]

theorem valueAfter_binary (hinputs : node.inputs = [v, w]) (hout : node.outputs = [out])
    (hv : env v = some a) (hw : env w = some b) : valueAfter apply env (node :: rest) result =
      (apply node [a, b]).bind fun c => valueAfter apply (env.set out c) rest result := by
  simp [valueAfter, evaluate, hinputs, Node.output?, hout, hv, hw, Option.bind_assoc]

end

/-! ## One node -/

namespace Reference.Call

open Tensor

variable {call : Call} {node : Node} {t u : Tensor} {name : String}

theorem kernel_eq_ok {result : Except KernelError Tensor} :
    call.kernel result = .ok u ↔ result = .ok u := Outcome.mapError_eq_ok

/-- A node that has a tensor as its result runs to this tensor. -/
theorem results_of_tensorResult (h : call.tensorResult = .ok u) :
    call.results = .ok [.tensor u] := by
  unfold results
  split
  · next hkind => simp [tensorResult, hkind, fail] at h
  · next hkind => simp [tensorResult, hkind, fail] at h
  · next hkind => simp [tensorResult, hkind, fail] at h
  · rw [h]
    rfl

theorem float_of_node {x default : Float} (h : call.node.float? name = some x) :
    call.float name default = .ok x := by
  obtain ⟨a, ha, hx⟩ := Option.bind_eq_some_iff.mp h
  have hfloat? : call.float? name = .ok (some x) := by
    unfold float?
    rw [attr?_of_node ha]
    cases a <;> simp_all [Attr.float?]
  unfold float
  rw [hfloat?]
  rfl

/-- A function of every element cannot fail. -/
theorem mapAs_of_counted (ht : t.Counted) (dtype : DType → DType) (f : Float → Float) :
    (mk node [.tensor t]).mapAs dtype f =
      .ok ⟨dtype t.dtype, t.dims, store (t.doubles.map f) (dtype t.dtype)⟩ :=
  kernel_eq_ok.mpr (Kernel.map_eq_ok.mpr ⟨ht, rfl⟩)

/-- The second number is written on the node. -/
theorem binary_of_number {x : Float} (ht : t.Counted) (hother : node.float? "other" = some x)
    (f : Float → Float → Float) {dtype : DType}
    (hdtype : dtype = if Number.hasFraction x && !t.dtype.isFloat then .f32 else t.dtype) :
    (mk node [.tensor t]).binary f =
      .ok ⟨dtype, t.dims, store (t.doubles.map (f · x)) dtype⟩ := by
  unfold binary
  rw [right_of_other rfl hother, hdtype]
  exact kernel_eq_ok.mpr (Kernel.map_eq_ok.mpr ⟨ht, rfl⟩)

/-- Two tensors of equal extents. -/
theorem binary_of_tensors {a b : Tensor} (ha : a.Counted) (hb : b.Counted) (hdims : b.dims = a.dims)
    (f : Float → Float → Float) {dtype : DType} (hdtype : dtype = Kernel.promote a.dtype b.dtype) :
    (mk node [.tensor a, .tensor b]).binary f =
      .ok ⟨dtype, a.dims, store (Array.zipWith f a.doubles b.doubles) dtype⟩ := by
  subst hdtype
  exact kernel_eq_ok.mpr (Kernel.binary_eq_ok ha hb hdims)

/-- A node of two operands applies its function of two numbers. -/
theorem tensorResult_eq_binary {f : Float → Float → Float} (hf : node.binary? .double = some f)
    (args : List Datum) : (mk node args).tensorResult = (mk node args).binary f := by
  unfold Node.binary? at hf
  split at hf
  · next hkind =>
    obtain rfl := Option.some.inj hf
    simp only [tensorResult, hkind]
  · next hkind =>
    obtain rfl := Option.some.inj hf
    simp only [tensorResult, hkind]
    rfl
  · next hkind =>
    obtain ⟨alpha, halpha, rfl⟩ := Option.map_eq_some_iff.mp hf
    simp only [tensorResult, hkind]
    rw [float_of_node halpha]
    rfl
  · cases hf

end Reference.Call

namespace Reference

open Tensor Call

variable {node : Node} {t a b : Tensor}

/-- A node with one operand applies its function to every element. -/
theorem interpret_unary {f : Float → Float} (hf : node.unary? .double = some f) (ht : t.Counted) :
    interpret node [.tensor t] = .ok [.tensor ⟨node.unaryType t.dtype, t.dims,
      store (t.doubles.map f) (node.unaryType t.dtype)⟩] := by
  refine results_of_tensorResult ?_
  unfold Node.unary? at hf
  unfold Node.unaryType
  split at hf
  · next hkind =>
    obtain rfl := Option.some.inj hf
    simp only [tensorResult, hkind]
    exact mapAs_of_counted ht _ _
  · next hkind =>
    obtain rfl := Option.some.inj hf
    simp only [tensorResult, hkind]
    exact mapAs_of_counted ht _ _
  · next hkind =>
    obtain rfl := Option.some.inj hf
    simp only [tensorResult, hkind]
    exact mapAs_of_counted ht _ _
  · obtain ⟨g, hg, hf⟩ := Option.bind_eq_some_iff.mp hf
    obtain ⟨x, hother, rfl⟩ := Option.map_eq_some_iff.mp hf
    rw [tensorResult_eq_binary hg, hother]
    exact binary_of_number ht hother g rfl

/-- A node with two operands of equal extents applies its function element by element. -/
theorem interpret_binary {f : Float → Float → Float} (hf : node.binary? .double = some f)
    (ha : a.Counted) (hb : b.Counted) (hdims : b.dims = a.dims) :
    interpret node [.tensor a, .tensor b] = .ok [.tensor ⟨Kernel.promote a.dtype b.dtype, a.dims,
      store (Array.zipWith f a.doubles b.doubles) (Kernel.promote a.dtype b.dtype)⟩] := by
  refine results_of_tensorResult ?_
  rw [tensorResult_eq_binary hf]
  exact binary_of_tensors ha hb hdims f rfl

end Reference

/-! ## Runs -/

/-- A tensor has given extents, and the cell is its element at a place, if there is one. -/
structure Cell.At (dims : List Nat) (i : Nat) (c : Cell) (t : Tensor) : Prop where
  dims : t.dims = dims
  counted : t.Counted
  dtype : t.dtype = c.dtype
  value : ∀ x, t.doubles[i]? = some x → x = c.value

/-- Every value that a valuation gives is the element of a bound tensor. -/
def Valuation.Holds (env : Valuation Cell) (dims : List Nat) (i : Nat) (bound : Bindings) : Prop :=
  ∀ v c, env v = some c → ∃ t, bound.read v = .ok (.tensor t) ∧ c.At dims i t

section

open Reference Tensor

variable {dims : List Nat} {i : Nat}

/-- What a node makes of elements is what the interpreter makes of their tensors. -/
theorem interpret_of_onCells {node : Node} {cells : List Cell} {c : Cell} {ts : List Tensor}
    (h : node.onCells cells = some c) (hts : List.Forall₂ (Cell.At dims i) cells ts) :
    ∃ u, interpret node (ts.map .tensor) = .ok [.tensor u] ∧ c.At dims i u := by
  unfold Node.onCells at h
  split at h
  · next a =>
    obtain ⟨f, hf, rfl⟩ := Option.map_eq_some_iff.mp h
    obtain _ | ⟨ha, _ | _⟩ := hts
    next t =>
    refine ⟨_, interpret_unary hf ha.counted, ha.dims, counted_store ?_, ?_, fun x hx => ?_⟩
    · rw [Array.size_map, size_doubles, ha.counted]
    · rw [ha.dtype]
      rfl
    · rw [doubles_store, ha.dtype, Array.getElem?_map, Array.getElem?_map] at hx
      obtain ⟨y, hy, rfl⟩ := Option.map_eq_some_iff.mp hx
      obtain ⟨z, hz, rfl⟩ := Option.map_eq_some_iff.mp hy
      rw [ha.value z hz]
      rfl
  · next a b =>
    obtain ⟨f, hf, rfl⟩ := Option.map_eq_some_iff.mp h
    obtain _ | ⟨ha, _ | ⟨hb, _ | _⟩⟩ := hts
    next t u =>
    have hdims : u.dims = t.dims := hb.dims.trans ha.dims.symm
    have hsize : u.size = t.size := hb.counted.trans (hdims ▸ ha.counted.symm)
    refine ⟨_, interpret_binary hf ha.counted hb.counted hdims, ha.dims, counted_store ?_, ?_,
      fun x hx => ?_⟩
    · rw [Array.size_zipWith, size_doubles, size_doubles, hsize, Nat.min_self, ha.counted]
    · rw [ha.dtype, hb.dtype]
      rfl
    · rw [doubles_store, ha.dtype, hb.dtype, Array.getElem?_map] at hx
      obtain ⟨y, hy, rfl⟩ := Option.map_eq_some_iff.mp hx
      rw [Array.getElem?_zipWith_eq_some] at hy
      obtain ⟨p, q, hp, hq, rfl⟩ := hy
      rw [ha.value p hp, hb.value q hq]
      rfl
  · cases h

/-- What is read together has the elements that are evaluated together. -/
theorem Valuation.Holds.mapM {env : Valuation Cell} {bound : Bindings} (h : env.Holds dims i bound)
    {vs : List ValueId} {cells : List Cell} (hcells : vs.mapM env = some cells) :
    ∃ ts : List Tensor, vs.mapM bound.read = .ok (ts.map .tensor) ∧
      List.Forall₂ (Cell.At dims i) cells ts := by
  induction vs generalizing cells with
  | nil =>
    obtain rfl := Option.some.inj hcells
    exact ⟨[], rfl, .nil⟩
  | cons v vs ih =>
    rw [List.mapM_cons] at hcells
    obtain ⟨c, hc, hcells⟩ := Option.bind_eq_some_iff.mp hcells
    obtain ⟨rest, hrest, hcells⟩ := Option.bind_eq_some_iff.mp hcells
    obtain rfl := Option.some.inj hcells
    obtain ⟨t, ht, hat⟩ := h v c hc
    obtain ⟨ts, hts, hall⟩ := ih hrest
    exact ⟨t :: ts, Outcome.mapM_cons_eq_ok.mpr ⟨_, _, ht, hts, rfl⟩, .cons hat hall⟩

/-- Nodes that can be evaluated run, and every element is what evaluation says. -/
theorem run_of_evaluate {nodes : List Node} {env env' : Valuation Cell} {bound : Bindings}
    (hbound : env.Holds dims i bound) (h : evaluate Node.onCells env nodes = some env') :
    ∃ next, nodes.foldlM (Graph.runNode interpret) bound = .ok next ∧ env'.Holds dims i next := by
  induction nodes generalizing env bound with
  | nil =>
    obtain rfl := Option.some.inj h
    exact ⟨bound, rfl, hbound⟩
  | cons node rest ih =>
    rw [evaluate] at h
    obtain ⟨cells, hcells, h⟩ := Option.bind_eq_some_iff.mp h
    obtain ⟨out, hout, h⟩ := Option.bind_eq_some_iff.mp h
    obtain ⟨c, hc, h⟩ := Option.bind_eq_some_iff.mp h
    have houtputs : node.outputs = [out] := by
      unfold Node.output? at hout
      split at hout
      · next heq => rw [heq, Option.some.inj hout]
      · cases hout
    obtain ⟨ts, hts, hall⟩ := hbound.mapM hcells
    obtain ⟨u, hu, hat⟩ := interpret_of_onCells hc hall
    have hholds : (env.set out c).Holds dims i ((out, .tensor u) :: bound) := by
      intro v d hd
      rw [Bindings.read_cons]
      unfold Valuation.set at hd
      by_cases hv : v = out
      · rw [if_pos hv] at hd ⊢
        obtain rfl := Option.some.inj hd
        exact ⟨u, rfl, hat⟩
      · rw [if_neg hv] at hd ⊢
        exact hbound v d hd
    obtain ⟨next, hnext, hlast⟩ := ih hholds h
    refine ⟨next, Outcome.foldlM_cons_eq_ok.mpr ⟨_, ?_, hnext⟩, hlast⟩
    refine Graph.runNode_eq_ok.mpr ⟨_, _, hts, hu, ?_, ?_⟩
    · rw [houtputs]
      rfl
    · rw [houtputs]
      rfl

/-- Nodes that can be evaluated on every element of a tensor run on the tensor, and the elements of
the last value are what evaluation says of the elements in their place. -/
theorem run_of_compose {nodes : List Node} {x result : ValueId} {bound : Bindings} {t : Tensor}
    {dtype : DType} (hread : bound.read x = .ok (.tensor t)) (ht : t.Counted)
    (heval : ∀ y, ∃ c, compose Node.onCells nodes x result ⟨t.dtype, y⟩ = some c ∧
      c.dtype = dtype) :
    ∃ next v, nodes.foldlM (Graph.runNode interpret) bound = .ok next ∧
      next.read result = .ok (.tensor v) ∧ v.dtype = dtype ∧ v.dims = t.dims ∧
      ∀ (i : Nat) y, t.doubles[i]? = some y → ∃ z, v.doubles[i]? = some z ∧
        compose Node.onCells nodes x result ⟨t.dtype, y⟩ = some ⟨v.dtype, z⟩ := by
  have hplace : ∀ (i : Nat) y, (∀ z, t.doubles[i]? = some z → z = y) → ∃ next v c,
      nodes.foldlM (Graph.runNode interpret) bound = .ok next ∧
      next.read result = .ok (.tensor v) ∧
      compose Node.onCells nodes x result ⟨t.dtype, y⟩ = some c ∧ c.dtype = dtype ∧
      c.At t.dims i v := by
    intro i y hy
    obtain ⟨c, hc, hdtype⟩ := heval y
    obtain ⟨env, henv, hresult⟩ := Option.bind_eq_some_iff.mp hc
    have hstart : (Valuation.set (fun _ => none) x (Cell.mk t.dtype y)).Holds t.dims i bound := by
      intro v d hd
      by_cases hv : v = x
      · rw [hv, Valuation.set_self] at hd
        obtain rfl := Option.some.inj hd
        exact ⟨t, hv ▸ hread, rfl, ht, rfl, hy⟩
      · rw [Valuation.set_of_ne hv] at hd
        cases hd
    obtain ⟨next, hnext, hholds⟩ := run_of_evaluate hstart henv
    obtain ⟨v, hv, hat⟩ := hholds result c hresult
    exact ⟨next, v, c, hnext, hv, hc, hdtype, hat⟩
  -- The run is the same for every place, so its last value may be named at the first one.
  obtain ⟨next, v, c, hnext, hv, -, hdtype, hat⟩ :=
    hplace 0 (t.doubles.getD 0 0.0) fun z hz => by simp [Array.getD_eq_getD_getElem?, hz]
  refine ⟨next, v, hnext, hv, hat.dtype.trans hdtype, hat.dims, fun i y hy => ?_⟩
  obtain ⟨next', v', c', hnext', hv', hc', -, hat'⟩ :=
    hplace i y fun z hz => Option.some.inj (hz.symm.trans hy)
  obtain rfl := Except.ok.inj (hnext'.symm.trans hnext)
  obtain rfl : v' = v := Datum.tensor.inj (Except.ok.inj (hv'.symm.trans hv))
  have hi : i < v'.doubles.size := by
    have hlt : i < t.doubles.size := (Array.getElem?_eq_some_iff.mp hy).1
    rwa [size_doubles, hat'.counted, hat'.dims, ← ht, ← size_doubles]
  have hz : v'.doubles[i]? = some v'.doubles[i] := Array.getElem?_eq_getElem hi
  refine ⟨_, hz, ?_⟩
  rw [hc', hat'.value _ hz, hat'.dtype]

end

end HybridGraph
