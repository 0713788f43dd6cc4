import HybridGraph.Proofs.Conversion.Answering
import HybridGraph.Proofs.Conversion.Blame
import HybridGraph.Proofs.Engine.Contract
/-!
# Running what was emitted

Layers run one after the other from slots that hold tensors, and `Engine.result?` is the tensor
that they leave for a network tensor.  Layers that a computation adds fill new tensors only
(`EmitState.Adds`), so what was known before they ran is known after it.

`Emit.Yields engine m site s known result?` says what running them leaves for the answer of `m`,
whenever the slots hold what is known.  It follows the shape of a converter: `Yields.after` passes
a step that only reads (`Emit.Reads`), `Yields.guard` a check, `Yields.next` a step that answers a
tensor itself, and `Yields.layer` runs a layer on known tensors.  What it finds of a converter is
what a converted node computes:

    (standard A).convert g truncateWide s node = (.ok (), s') →
      (s.Computes engine s' slots out y ↔ result? = some y)            (Registry.computes_iff)
-/

namespace HybridGraph

/-! ## Results of layers -/

namespace Engine

variable {engine : Engine} {slots slots' : Slots} {layers back : List Layer} {x : TensorRef}
  {t : Tensor}

/-- The tensor that layers, run from slots, leave for a network tensor. -/
def result? (engine : Engine) (slots : Slots) (layers : List Layer) (x : TensorRef) :
    Option Tensor :=
  match layers.foldlM engine.runLayer slots with
  | .ok slots => slots[x.index]?.join
  | .error _ => none

theorem result?_eq_some : engine.result? slots layers x = some t ↔
    ∃ slots', layers.foldlM engine.runLayer slots = .ok slots' ∧
      slots'[x.index]? = some (some t) := by
  unfold result?
  split
  · next slots' hrun => simp [hrun, Option.join_eq_some_iff]
  · next e hrun => simp [hrun]

theorem result?_append (hrun : layers.foldlM engine.runLayer slots = .ok slots') :
    engine.result? slots (layers ++ back) x = engine.result? slots' back x := by
  unfold result?
  rw [List.foldlM_append, Outcome.bind_of_eq_ok hrun]

/-- A layer that runs writes its own slot. -/
theorem exists_of_runLayer {layer : Layer} (hrun : engine.runLayer slots layer = .ok slots') :
    ∃ t, writeSlot slots layer.output (some t) = .ok slots' := by
  obtain ⟨operands, -, hrun⟩ := Outcome.bind_eq_ok.mp hrun
  obtain ⟨t, -, hrun⟩ := Outcome.bind_eq_ok.mp hrun
  obtain ⟨t, -, hwrite⟩ := Outcome.bind_eq_ok.mp hrun
  exact ⟨t, hwrite⟩

/-- Slots below all outputs are as they were. -/
theorem kept_of_foldlM {size : Nat} (hfresh : ∀ layer ∈ layers, size ≤ layer.output.index)
    (hrun : layers.foldlM engine.runLayer slots = .ok slots') :
    slots'.size = slots.size ∧ ∀ y : TensorRef, y.index < size → slots'[y.index]? =
      slots[y.index]? := by
  induction layers generalizing slots with
  | nil =>
    obtain rfl := Outcome.pure_eq_ok.mp hrun
    exact ⟨rfl, fun _ _ => rfl⟩
  | cons layer layers ih =>
    obtain ⟨next, hnext, hrest⟩ := Outcome.foldlM_cons_eq_ok.mp hrun
    obtain ⟨t, hwrite⟩ := exists_of_runLayer hnext
    obtain ⟨hsize, hkept⟩ := ih (fun l hl => hfresh l (List.mem_cons_of_mem layer hl)) hrest
    refine ⟨hsize.trans (size_of_writeSlot hwrite), fun y hy => ?_⟩
    have hother : y ≠ layer.output := fun heq =>
      absurd (hfresh layer List.mem_cons_self) (Nat.not_le.mpr (heq ▸ hy))
    rw [hkept y hy, getElem?_of_writeSlot hwrite, if_neg hother]

/-- One layer leaves what its kind computes. -/
theorem result?_singleton {layer : Layer} {operands : List Tensor}
    (hreduced : engine.reducedPrecision = false) (hlt : layer.output.index < slots.size)
    (hoperands : List.Forall₂ (fun x t => slots[x.index]? = some (some t)) layer.inputs operands) :
    engine.result? slots [layer] layer.output = (layer.kind.run operands).toOption := by
  have hfilled : layer.inputs.mapM (filled slots) = .ok operands :=
    Outcome.mapM_eq_ok.mpr (hoperands.imp fun _ _ => filled_eq_ok.mpr)
  have hstep : engine.runLayer slots layer =
      (layer.kind.run operands).mapError (.run layer.kind.label layer.name) >>= fun t =>
        writeSlot slots layer.output (some t) := by
    unfold runLayer rounded
    rw [hreduced, Outcome.bind_of_eq_ok hfilled]
    rfl
  unfold result?
  rw [List.foldlM_cons, hstep]
  cases layer.kind.run operands with
  | error cause => rfl
  | ok t =>
    have hwrite : writeSlot slots layer.output (some t) =
        .ok (slots.setIfInBounds layer.output.index (some t)) := writeSlot_eq_ok.mpr ⟨hlt, rfl⟩
    show (match writeSlot slots layer.output (some t) >>= pure with
      | .ok slots => slots[layer.output.index]?.join
      | .error _ => none) = some t
    rw [hwrite]
    show ((slots.setIfInBounds layer.output.index (some t))[layer.output.index]?).join = some t
    rw [Array.getElem?_setIfInBounds_self_of_lt hlt]
    rfl

end Engine

/-! ## Added layers -/

namespace EmitState

variable {s s' s'' : EmitState Reference.accelerator} {added added' : List Layer}

/-- The layers of the network. -/
def layers (s : EmitState Reference.accelerator) : List Layer := Network.layers s.network

/-- Number of tensors of the network. -/
def size (s : EmitState Reference.accelerator) : Nat := (Network.tensors s.network).size

/-- Layers were added that fill new tensors, and all else is as it was. -/
structure Adds (s s' : EmitState Reference.accelerator) (added : List Layer) : Prop where
  grows : s.Grows s'
  layers : s'.layers = s.layers ++ added
  size : s.size ≤ s'.size
  fresh : ∀ layer ∈ added, s.size ≤ layer.output.index

theorem Adds.refl (s : EmitState Reference.accelerator) : s.Adds s [] :=
  ⟨.refl s, (List.append_nil _).symm, Nat.le_refl _, fun _ h => nomatch h⟩

theorem Adds.trans (h : s.Adds s' added) (h' : s'.Adds s'' added') :
    s.Adds s'' (added ++ added') where
  grows := h.grows.trans h'.grows
  layers := by rw [h'.layers, h.layers, List.append_assoc]
  size := h.size.trans h'.size
  fresh layer hmem := (List.mem_append.mp hmem).elim (h.fresh layer) fun hmem =>
    h.size.trans (h'.fresh layer hmem)

end EmitState

/-! ## Yields -/

/-- What is known of the slots: which tensors some network tensors hold. -/
abbrev Known := TensorRef → Tensor → Prop

namespace Known

/-- The slots hold what is known. -/
def Holds (known : Known) (slots : Engine.Slots) : Prop :=
  ∀ x t, known x t → slots[x.index]? = some (some t)

/-- All that is known is about tensors of a network. -/
def Within (known : Known) (s : EmitState Reference.accelerator) : Prop :=
  ∀ x t, known x t → x.index < s.size

/-- One more tensor is known. -/
def add (known : Known) (x : TensorRef) (t : Tensor) : Known := fun y u =>
  known y u ∨ y = x ∧ u = t

theorem add_self {known : Known} {x : TensorRef} {t : Tensor} : known.add x t x t := .inr ⟨rfl, rfl⟩

theorem add_of {known : Known} {x y : TensorRef} {t u : Tensor} (h : known y u) :
    known.add x t y u := .inl h

end Known

/-- Whatever stands for an operand of a node is known to hold a tensor, which is as it is
described. -/
def EmitState.Provides (s : EmitState Reference.accelerator) (known : Known) (node : Node)
    (operand : Nat) (t : Tensor) : Prop :=
  ∀ x, node.inputs[operand]?.bind s.tensor? = some x →
    known x t ∧ ∃ d, Network.describe? s.network x = some d ∧ t.Conforms d

theorem Tensor.Conforms.rank_eq {t : Tensor} {d : TensorSig} (h : t.Conforms d) : d.rank = t.rank :=
  h.2.length_eq.symm

namespace Emit

variable {α : Type} {engine : Engine} {site : EmitSite} {s s' : EmitState Reference.accelerator}
  {m : Emit Reference.accelerator TensorRef} {known : Known} {x : TensorRef} {t : Tensor}
  {result? : Option Tensor} {q : α → Prop}

/-- From slots that hold what is known, the layers that a computation adds leave a tensor for its
answer, or none. -/
def Yields (engine : Engine) (m : Emit Reference.accelerator TensorRef) (site : EmitSite)
    (s : EmitState Reference.accelerator) (known : Known) (result? : Option Tensor) : Prop :=
  known.Within s → ∀ x s', m.eval site s = (.ok x, s') →
    ∃ added, s.Adds s' added ∧ x.index < s'.size ∧
      ∀ slots, known.Holds slots → s'.size ≤ slots.size → engine.result? slots added x = result?

/-- A step that, if it succeeds, leaves the state alone and answers something with a property. -/
def Reads (r : Emit Reference.accelerator α) (site : EmitSite)
    (s : EmitState Reference.accelerator) (q : α → Prop) : Prop :=
  ∀ a s', r.eval site s = (.ok a, s') → s = s' ∧ q a

/-- A layer that is added is the last one, and its result is a new tensor. -/
theorem adds_of_layer {kind : LayerKind} {inputs : List TensorRef}
    (hrun : (Emit.layer kind inputs).eval site s = (.ok x, s')) :
    x = ⟨s.size⟩ ∧ s'.size = s.size + 1 ∧
      s.Adds s' [⟨s!"{site.node.id.text}:{kind.label}", kind, inputs, x⟩] := by
  obtain ⟨network, hadd, rfl⟩ := eval_layer_eq_ok.mp hrun
  obtain ⟨ds, d, -, -, hnetwork, hx⟩ := Network.addLayer_eq_ok.mp hadd
  obtain rfl := (List.cons.inj hx).1
  have htensors : Network.tensors network = (Network.tensors s.network).push d := by rw [hnetwork]
  have hsize : (s.grow network site.node.id).size = s.size + 1 :=
    (congrArg Array.size htensors).trans (Array.size_push d)
  refine ⟨rfl, hsize, ⟨rfl, fun y e => Network.describe?_push htensors, ?_⟩, ?_, ?_, ?_⟩
  · exact (congrArg Network.outputs hnetwork :)
  · exact (congrArg Network.layers hnetwork :)
  · exact hsize ▸ Nat.le_succ s.size
  · intro layer hlayer
    obtain rfl := List.mem_singleton.mp hlayer
    exact Nat.le_refl _

namespace Yields

/-- A step that only reads answers a tensor that is known. -/
theorem read {q : TensorRef → Prop} (hm : m.Reads site s q) (h : ∀ x, q x → known x t) :
    Yields engine m site s known (some t) := by
  intro hwithin x s' hrun
  obtain ⟨rfl, hx⟩ := hm x s' hrun
  exact ⟨[], .refl s, hwithin x t (h x hx), fun slots hholds _ =>
    Engine.result?_eq_some.mpr ⟨slots, rfl, hholds x t (h x hx)⟩⟩

theorem done (h : known x t) : Yields engine (pure x) site s known (some t) :=
  read (fun _ _ hrun => ⟨(eval_pure_eq_ok.mp hrun).2, (eval_pure_eq_ok.mp hrun).1⟩)
    fun _ hx => hx ▸ h

/-- A node that is given up yields anything. -/
theorem fail {fault : ConversionFault} :
    Yields engine (Emit.fail fault) site s known result? := by
  intro _ x s' hrun
  cases hrun

/-- A layer computes on what is known. -/
theorem layer {kind : LayerKind} {inputs : List TensorRef} {operands : List Tensor}
    (hreduced : engine.reducedPrecision = false) (hoperands : List.Forall₂ known inputs operands) :
    Yields engine (Emit.layer kind inputs) site s known (kind.run operands).toOption := by
  intro _ x s' hrun
  obtain ⟨rfl, hsize, hadds⟩ := adds_of_layer hrun
  refine ⟨_, hadds, hsize ▸ Nat.lt_succ_self s.size, fun slots hholds hlarge => ?_⟩
  rw [hsize] at hlarge
  exact Engine.result?_singleton hreduced hlarge (hoperands.imp hholds)

/-- A step that only reads, and then an answer. -/
theorem after {r : Emit Reference.accelerator α} {f : α → Emit Reference.accelerator TensorRef}
    (hr : r.Reads site s q) (hf : ∀ a, q a → Yields engine (f a) site s known result?) :
    Yields engine (r >>= f) site s known result? := by
  intro hwithin x s' hrun
  obtain ⟨a, next, hread, hrest⟩ := eval_bind_eq_ok.mp hrun
  obtain ⟨rfl, ha⟩ := hr a next hread
  exact hf a ha hwithin x s' hrest

/-- A check that only some nodes need, and then an answer. -/
theorem guard {c p : Prop} [Decidable c] {check : Emit Reference.accelerator PUnit}
    {rest : PUnit → Emit Reference.accelerator TensorRef}
    (hcheck : check.Reads site s fun _ => p)
    (hrest : (c → p) → Yields engine (rest ⟨⟩) site s known result?) :
    Yields engine (if c then check >>= rest else rest ⟨⟩) site s known result? := by
  split
  · exact after hcheck fun _ hp => hrest fun _ => hp
  · next h => exact hrest fun hc => absurd hc h

/-- A tensor is answered, and then another one on what is known and it. -/
theorem next {f : TensorRef → Emit Reference.accelerator TensorRef}
    (hm : Yields engine m site s known (some t))
    (hf : ∀ x s', Yields engine (f x) site s' (known.add x t) result?) :
    Yields engine (m >>= f) site s known result? := by
  intro hwithin y s₂ hrun
  obtain ⟨x, s₁, hfirst, hrest⟩ := eval_bind_eq_ok.mp hrun
  obtain ⟨front, hfront, hx, hleft⟩ := hm hwithin x s₁ hfirst
  have hwithin₁ : (known.add x t).Within s₁ := by
    rintro z u (hz | ⟨rfl, rfl⟩)
    · exact (hwithin z u hz).trans_le hfront.size
    · exact hx
  obtain ⟨back, hback, hy, hyields⟩ := hf x s₁ hwithin₁ y s₂ hrest
  refine ⟨front ++ back, hfront.trans hback, hy, fun slots hholds hlarge => ?_⟩
  obtain ⟨slots₁, hrun₁, hslot⟩ :=
    Engine.result?_eq_some.mp (hleft slots hholds (hback.size.trans hlarge))
  obtain ⟨hsize, hkept⟩ := Engine.kept_of_foldlM hfront.fresh hrun₁
  rw [Engine.result?_append hrun₁]
  refine hyields slots₁ ?_ (hsize ▸ hlarge)
  rintro z u (hz | ⟨rfl, rfl⟩)
  · rw [hkept z (hwithin z u hz)]
    exact hholds z u hz
  · exact hslot

end Yields

/-! ## Reading -/

theorem reads_of_eval_eq {r : Emit Reference.accelerator α} {a : α}
    (h : r.eval site s = (.ok a, s)) : r.Reads site s (a = ·) := by
  intro b s' hrun
  rw [h] at hrun
  obtain ⟨hb, hs⟩ := Prod.mk.inj hrun
  exact ⟨hs, Except.ok.inj hb⟩

theorem reads_node : (node : Emit Reference.accelerator Node).Reads site s (site.node = ·) :=
  reads_of_eval_eq rfl

theorem reads_fail {fault : ConversionFault} :
    (fail fault : Emit Reference.accelerator α).Reads site s q := by
  intro a s' hrun
  cases hrun

theorem reads_orFail {value? : Option α} {fault : ConversionFault} :
    (orFail value? fault : Emit Reference.accelerator α).Reads site s (value? = some ·) := by
  cases value? with
  | none => exact reads_fail
  | some a =>
    rintro b s' hrun
    cases hrun
    exact ⟨rfl, rfl⟩

theorem reads_describe {x : TensorRef} :
    (describe x).Reads site s (Network.describe? s.network x = some ·) := fun _ _ hrun =>
  (eval_describe_eq_ok.mp hrun).symm

/-- The descriptor of a tensor to which another one conforms. -/
theorem reads_conforming {x : TensorRef}
    (h : ∃ d, Network.describe? s.network x = some d ∧ t.Conforms d) :
    (describe x).Reads site s (t.Conforms ·) := by
  obtain ⟨d, hd, hconforms⟩ := h
  intro e s' hrun
  obtain ⟨rfl, he⟩ := reads_describe e s' hrun
  obtain rfl := Option.some.inj (hd.symm.trans he)
  exact ⟨rfl, hconforms⟩

theorem reads_input {operand : Nat} (h : s.Provides known site.node operand t) :
    (input operand).Reads site s fun x =>
      known x t ∧ ∃ d, Network.describe? s.network x = some d ∧ t.Conforms d := by
  intro x s' hrun
  obtain ⟨hx, rfl⟩ := eval_input_eq_ok.mp hrun
  exact ⟨rfl, h x (Option.bind_eq_some_iff.mpr hx)⟩

theorem reads_axis {n : Int} {rank : Nat} :
    (Emit.axis n rank : Emit Reference.accelerator Nat).Reads site s
      (Kernel.axisIndex n rank = .ok ·) := by
  intro axis s' hrun
  obtain ⟨rfl, h⟩ := reads_orFail axis s' hrun
  exact ⟨rfl, by cases hk : Kernel.axisIndex n rank <;> simp_all [Except.toOption]⟩

theorem reads_ints {name : String} :
    (ints name : Emit Reference.accelerator (List Int)).Reads site s
      (site.node.ints? name = some ·) := by
  intro ns s' hrun
  obtain ⟨_, _, hnode, hrun⟩ := eval_bind_eq_ok.mp hrun
  cases hnode
  exact reads_orFail ns s' hrun

theorem reads_needFloat {d : TensorSig} :
    (needFloat d : Emit Reference.accelerator Unit).Reads site s
      fun _ => d.dtype.isFloat = true := by
  unfold needFloat
  split
  · next h =>
    intro a s' hrun
    cases hrun
    exact ⟨rfl, h⟩
  · exact reads_fail

/-- Steps that only read, one for each element. -/
theorem reads_mapM {β : Type} {f : α → Emit Reference.accelerator β} {r : α → β → Prop}
    {as : List α} (hf : ∀ a ∈ as, (f a).Reads site s (r a)) :
    (as.mapM f).Reads site s (List.Forall₂ r as) := by
  induction as with
  | nil =>
    intro bs s' hrun
    cases hrun
    exact ⟨rfl, .nil⟩
  | cons a as ih =>
    intro bs s' hrun
    rw [List.mapM_cons] at hrun
    obtain ⟨b, s₁, hfirst, hrun⟩ := eval_bind_eq_ok.mp hrun
    obtain ⟨rfl, hb⟩ := hf a List.mem_cons_self b s₁ hfirst
    obtain ⟨rest, s₂, hrest, hrun⟩ := eval_bind_eq_ok.mp hrun
    obtain ⟨rfl, hbs⟩ := ih (fun a' ha' => hf a' (List.mem_cons_of_mem a ha')) rest s₂ hrest
    obtain ⟨rfl, rfl⟩ := eval_pure_eq_ok.mp hrun
    exact ⟨rfl, .cons hb hbs⟩

theorem reads_axes {ns : List Int} {rank : Nat} :
    (ns.mapM (axis · rank) : Emit Reference.accelerator (List Nat)).Reads site s
      (ns.mapM (Kernel.axisIndex · rank) = .ok ·) := by
  intro named s' hrun
  obtain ⟨rfl, hnamed⟩ := reads_mapM (fun n _ => reads_axis) named s' hrun
  exact ⟨rfl, Outcome.mapM_eq_ok.mpr hnamed⟩

end Emit

/-! ## Converted nodes -/

namespace EmitState

variable {s s' : EmitState Reference.accelerator} {slots : Engine.Slots} {ts : List Tensor}

/-- Values stand for network tensors whose slots hold tensors as they are described. -/
def Feeds (s : EmitState Reference.accelerator) (slots : Engine.Slots) (vs : List ValueId)
    (ts : List Tensor) : Prop :=
  List.Forall₂ (fun v t => ∃ x d, s.tensor? v = some x ∧ Network.describe? s.network x = some d ∧
    t.Conforms d ∧ slots[x.index]? = some (some t)) vs ts

/-- Run from slots, the layers that one state has beyond another leave a tensor for a value. -/
def Computes (s : EmitState Reference.accelerator) (engine : Engine)
    (s' : EmitState Reference.accelerator) (slots : Engine.Slots) (v : ValueId) (t : Tensor) :
    Prop :=
  ∃ x, s'.tensor? v = some x ∧
    engine.result? slots (s'.layers.drop s.layers.length) x = some t

/-- What slots hold of a network. -/
def known (s : EmitState Reference.accelerator) (slots : Engine.Slots) : Known := fun x t =>
  x.index < s.size ∧ slots[x.index]? = some (some t)

/-- Operands that are fed are provided by the slots. -/
theorem Feeds.provides {node : Node} (h : s.Feeds slots node.inputs ts) {operand : Nat} {t : Tensor}
    (ht : ts[operand]? = some t) : s.Provides (s.known slots) node operand t := by
  intro x hx
  obtain ⟨v, hv, hx⟩ := Option.bind_eq_some_iff.mp hx
  obtain ⟨u, hu, y, d, hy, hd, hconforms, hslot⟩ := Outcome.exists_getElem?_of_forall₂ h hv
  obtain rfl := Option.some.inj (ht.symm.trans hu)
  obtain rfl := Option.some.inj (hx.symm.trans hy)
  exact ⟨⟨(Array.getElem?_eq_some_iff.mp hd).1, hslot⟩, d, hd, hconforms⟩

end EmitState

namespace Registry

variable {engine : Engine} {g : Graph} {truncateWide : Bool}
  {s s' : EmitState Reference.accelerator} {node : Node} {slots : Engine.Slots} {out : ValueId}
  {result? : Option Tensor} {y : Tensor} {support : Graph → Node → Support}
  {m : Emit Reference.accelerator TensorRef}

/-- A converted node computes what its converter yields. -/
theorem computes_iff (hconverter : standard Reference.accelerator node.kind =
      some (single support m))
    (hyields : m.Yields engine ⟨g, node, truncateWide⟩ s (s.known slots) result?)
    (hconvert : (standard Reference.accelerator).convert g truncateWide s node = (.ok (), s'))
    (hout : node.outputs = [out]) (hsize : s'.size ≤ slots.size) :
    s.Computes engine s' slots out y ↔ result? = some y := by
  rw [convert_of_support (support_of_convert hconvert) hconverter] at hconvert
  obtain ⟨tensors, s₁, hsingle, hbind⟩ := Emit.eval_bind_eq_ok.mp hconvert
  obtain ⟨x, s₂, hrun, hpure⟩ := Emit.eval_bind_eq_ok.mp hsingle
  obtain ⟨rfl, rfl⟩ := Emit.eval_pure_eq_ok.mp hpure
  obtain ⟨-, rfl⟩ := Emit.eval_bindOutputs_eq_ok hbind
  obtain ⟨added, hadds, -, hleft⟩ := hyields (fun _ _ h => h.1) x s₂ hrun
  have hresult := hleft slots (fun _ _ h => h.2) hsize
  have hlayers : s₂.layers.drop s.layers.length = added := by
    rw [hadds.layers, List.drop_left]
  unfold EmitState.Computes EmitState.tensor?
  rw [hout]
  constructor
  · rintro ⟨z, hz, hy⟩
    obtain rfl : x = z := by simpa using hz
    exact hresult ▸ hlayers ▸ hy
  · intro hy
    exact ⟨x, by simp, by rw [← hy, ← hresult, ← hlayers]; rfl⟩

end Registry

end HybridGraph
