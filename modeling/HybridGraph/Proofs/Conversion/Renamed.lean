import HybridGraph.Proofs.Conversion.Blame
import HybridGraph.Proofs.Engine.Grown
/-!
# Conversions over renamed tensors

Which tensor stands for an operand depends on what was added to the network before.  A converter
does not look at the name of a tensor: where the operands of its node stand for renamed tensors it
adds the same layers over renamed tensors, and its results stand for renamed tensors again.
`Emit.Mirrors σ f m m'` says so of two computations:

    s.Mirrors σ t → m.eval site s = (.ok a, s') → m'.eval site t = (.ok b, t') →
      b = f a ∧ s'.Mirrors σ t'

Computations made of the same steps mirror each other (`Emit.Uniform.mirrors`), so every converter
of the standard registry mirrors itself (`Registry.mirrors_of_standard`), and a node that converts
in two networks adds the same layers to both (`Registry.mirrors_of_convert`).
-/

namespace HybridGraph

/-! ## Networks -/

/-- A layer over renamed tensors. -/
def Layer.renamed (σ : TensorRef → TensorRef) (layer : Layer) : Layer :=
  { layer with inputs := layer.inputs.map σ, output := σ layer.output }

namespace Network

variable {σ : TensorRef → TensorRef} {n n' m m' : Network}

/-- A network that has the layers of another over renamed tensors, under the same descriptors, and
will have renamed tensors next. -/
structure Mirrors (σ : TensorRef → TensorRef) (n m : Network) : Prop where
  layers : m.layers = n.layers.map (Layer.renamed σ)
  describe : ∀ {x d}, n.describe? x = some d → m.describe? (σ x) = some d
  next : ∀ k, σ ⟨n.tensors.size + k⟩ = ⟨m.tensors.size + k⟩

/-- The same layer is added to both. -/
theorem Mirrors.addLayer (h : n.Mirrors σ m) {kind : LayerKind} {inputs outs outs' : List TensorRef}
    {name : String} (hn : n.addLayer kind inputs name = .ok (n', outs))
    (hm : m.addLayer kind (inputs.map σ) name = .ok (m', outs')) :
    outs' = outs.map σ ∧ n'.Mirrors σ m' := by
  obtain ⟨operands, desc, hoperands, hdesc, rfl, rfl⟩ := addLayer_eq_ok.mp hn
  obtain ⟨operands', desc', hoperands', hdesc', rfl, rfl⟩ := addLayer_eq_ok.mp hm
  have hfirst : σ ⟨n.tensors.size⟩ = ⟨m.tensors.size⟩ := h.next 0
  have hsame : operands = operands' := by
    have hread := Outcome.mapM_eq_ok.mp hoperands
    have hread' := Outcome.mapM_eq_ok.mp hoperands'
    rw [List.forall₂_map_left_iff] at hread'
    refine List.forall₂_eq_eq_eq ▸ Outcome.forall₂_of_forall₂ hread hread' fun x _ d d' hd hd' => ?_
    have hd := h.describe (describe_eq_ok.mp hd)
    rw [describe_eq_ok.mp hd'] at hd
    exact (Option.some.inj hd).symm
  subst hsame
  obtain rfl := Except.ok.inj (hdesc.symm.trans hdesc')
  refine ⟨by rw [List.map_singleton, hfirst], ?_, fun {x d} hd => ?_, fun k => ?_⟩
  · dsimp only
    rw [h.layers, List.map_append, List.map_singleton, Layer.renamed, hfirst]
  · by_cases hnew : x = ⟨n.tensors.size⟩
    · subst hnew
      rw [describe?_pushed rfl] at hd
      rw [hfirst, describe?_pushed rfl, hd]
    · refine describe?_push rfl (h.describe ?_)
      have hindex : x.index ≠ n.tensors.size := fun heq => hnew (TensorRef.ext_index heq)
      have hlt := (Array.getElem?_eq_some_iff.mp hd).1
      rw [Array.size_push] at hlt
      rwa [describe?, Array.getElem?_push, if_neg hindex] at hd
  · simp only [Array.size_push, Nat.add_assoc]
    exact h.next (1 + k)

end Network

/-! ## States -/

/-- Values that stand for tensors of one network stand for the renamed ones of the other. -/
structure EmitState.Mirrors (σ : TensorRef → TensorRef)
    (s t : EmitState Reference.accelerator) : Prop where
  network : Network.Mirrors σ s.network t.network
  bound : ∀ {v x}, s.tensor? v = some x → t.tensor? v = some (σ x)

theorem EmitState.Mirrors.bind {σ : TensorRef → TensorRef}
    {s t : EmitState Reference.accelerator} (h : s.Mirrors σ t) (v : ValueId) (x : TensorRef) :
    (s.bind v x).Mirrors σ (t.bind v (σ x)) where
  network := h.network
  bound {w y} hw := by
    unfold tensor? EmitState.bind at hw ⊢
    rw [List.lookup_cons] at hw ⊢
    split at hw
    · exact congrArg (fun x => some (σ x)) (Option.some.inj hw)
    · exact h.bound hw

theorem EmitState.Mirrors.bindAll {σ : TensorRef → TensorRef}
    {s t : EmitState Reference.accelerator} (h : s.Mirrors σ t)
    (entries : List (ValueId × TensorRef)) :
    EmitState.Mirrors σ { s with bound := entries.reverse ++ s.bound }
      { t with bound := (entries.map (Prod.map id σ)).reverse ++ t.bound } := by
  induction entries generalizing s t with
  | nil => exact h
  | cons entry entries ih =>
    have hrest := ih (h.bind entry.1 entry.2)
    rw [List.map_cons, List.reverse_cons, List.reverse_cons, List.append_assoc, List.append_assoc]
    exact hrest

/-! ## Computations -/

namespace Emit

variable {α β γ δ : Type} {σ : TensorRef → TensorRef}

/-- Where the states mirror each other, the answer of one computation is that of the other, renamed,
and the states keep mirroring each other. -/
def Mirrors (σ : TensorRef → TensorRef) (f : α → β) (m : Emit Reference.accelerator α)
    (m' : Emit Reference.accelerator β) : Prop :=
  ∀ ⦃site s s' t t' a b⦄, s.Mirrors σ t → m.eval site s = (.ok a, s') →
    m'.eval site t = (.ok b, t') → b = f a ∧ s'.Mirrors σ t'

namespace Mirrors

variable {f : α → β} {g : γ → δ} {m : Emit Reference.accelerator α}
  {m' : Emit Reference.accelerator β}

theorem done (f : α → β) (a : α) : Mirrors σ f (pure a) (pure (f a)) := by
  intro site s s' t t' x y hst hs ht
  obtain ⟨rfl, rfl⟩ := eval_pure_eq_ok.mp hs
  obtain ⟨rfl, rfl⟩ := eval_pure_eq_ok.mp ht
  exact ⟨rfl, hst⟩

theorem fail (f : α → β) (fault : ConversionFault) :
    Mirrors σ f (Emit.fail fault) (Emit.fail fault) := by
  intro site s s' t t' x y hst hs ht
  cases hs

theorem input (operand : Nat) : Mirrors σ σ (Emit.input operand) (Emit.input operand) := by
  intro site s s' t t' x y hst hs ht
  obtain ⟨⟨v, hv, hx⟩, rfl⟩ := eval_input_eq_ok.mp hs
  obtain ⟨⟨w, hw, hy⟩, rfl⟩ := eval_input_eq_ok.mp ht
  obtain rfl := Option.some.inj (hv.symm.trans hw)
  exact ⟨Option.some.inj (hy.symm.trans (hst.bound hx)), hst⟩

theorem describe (x : TensorRef) : Mirrors σ id (Emit.describe x) (Emit.describe (σ x)) := by
  intro site s s' t t' d e hst hs ht
  obtain ⟨hd, rfl⟩ := eval_describe_eq_ok.mp hs
  obtain ⟨he, rfl⟩ := eval_describe_eq_ok.mp ht
  exact ⟨Option.some.inj (he.symm.trans (hst.network.describe hd)), hst⟩

theorem layer (kind : LayerKind) (inputs : List TensorRef) :
    Mirrors σ σ (Emit.layer kind inputs) (Emit.layer kind (inputs.map σ)) := by
  intro site s s' t t' x y hst hs ht
  obtain ⟨network, hx, rfl⟩ := eval_layer_eq_ok.mp hs
  obtain ⟨network', hy, rfl⟩ := eval_layer_eq_ok.mp ht
  obtain ⟨hsame, hnext⟩ := Network.Mirrors.addLayer hst.network hx hy
  exact ⟨List.singleton_inj.mp hsame, hnext, hst.bound⟩

/-- Both read the same node. -/
theorem node {k : Node → Emit Reference.accelerator α} {k' : Node → Emit Reference.accelerator β}
    (h : ∀ node, Mirrors σ f (k node) (k' node)) :
    Mirrors σ f (Emit.node >>= k) (Emit.node >>= k') := by
  intro site s s' t t' x y hst hs ht
  exact h site.node hst hs ht

theorem read {k : EmitSite → Emit Reference.accelerator α}
    {k' : EmitSite → Emit Reference.accelerator β} (h : ∀ site, Mirrors σ f (k site) (k' site)) :
    Mirrors σ f (MonadReader.read >>= k) (MonadReader.read >>= k') := by
  intro site s s' t t' x y hst hs ht
  exact h site hst hs ht

theorem bind {k : α → Emit Reference.accelerator γ} {k' : β → Emit Reference.accelerator δ}
    (h : Mirrors σ f m m') (hk : ∀ a, Mirrors σ g (k a) (k' (f a))) :
    Mirrors σ g (m >>= k) (m' >>= k') := by
  intro site s s' t t' x y hst hs ht
  obtain ⟨a, s₁, hfirst, hrest⟩ := eval_bind_eq_ok.mp hs
  obtain ⟨b, t₁, hfirst', hrest'⟩ := eval_bind_eq_ok.mp ht
  obtain ⟨rfl, hnext⟩ := h hst hfirst hfirst'
  exact hk a hnext hrest hrest'

end Mirrors

/-- Computations made of the same steps mirror each other. -/
theorem Uniform.mirrors {missing : Prop} {f : α → β} {m : Emit Reference.accelerator α}
    {m' : Emit Reference.accelerator β} (h : Uniform σ missing f m m') : Mirrors σ f m m' := by
  induction h with
  | done f a => exact .done f a
  | fail f _ => exact .fail f _
  | input operand => exact .input operand
  | describe tensor => exact .describe tensor
  | layer kind inputs => exact .layer kind inputs
  | narrowing _ _ ih => exact .read ih
  | node _ _ ih => exact .node ih
  | bind _ _ ihm ihk => exact .bind ihm ihk

end Emit

/-! ## Registries -/

namespace Registry

variable {σ : TensorRef → TensorRef}

/-- Every converter of the standard registry mirrors itself. -/
theorem mirrors_of_standard {kind : OpKind} {converter : Converter Reference.accelerator}
    (h : standard Reference.accelerator kind = some converter) :
    Emit.Mirrors σ (List.map σ) converter.convert converter.convert :=
  (uniform_of_standard h).mirrors

variable {r : Registry Reference.accelerator} {g : Graph} {truncateWide : Bool} {node : Node}
  {s s' t t' : EmitState Reference.accelerator}

/-- A node that converts in two networks adds the same layers to both, over renamed tensors. -/
theorem mirrors_of_convert (hr : r.IsPart) (hst : s.Mirrors σ t)
    (hs : r.convert g truncateWide s node = (.ok (), s'))
    (ht : r.convert g truncateWide t node = (.ok (), t')) : s'.Mirrors σ t' := by
  have hsupport := support_of_convert hs
  obtain ⟨converter, hconverter⟩ := exists_converter hsupport
  rw [convert_of_support hsupport hconverter] at hs ht
  obtain ⟨tensors, s₁, hrun, hbind⟩ := Emit.eval_bind_eq_ok.mp hs
  obtain ⟨tensors', t₁, hrun', hbind'⟩ := Emit.eval_bind_eq_ok.mp ht
  obtain ⟨rfl, hnext⟩ := mirrors_of_standard (hr.eq_standard hconverter) hst hrun hrun'
  obtain ⟨-, rfl⟩ := Emit.eval_bindOutputs_eq_ok hbind
  obtain ⟨-, rfl⟩ := Emit.eval_bindOutputs_eq_ok hbind'
  rw [List.zip_map_right]
  exact hnext.bindAll _

end Registry

end HybridGraph
