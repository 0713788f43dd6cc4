import HybridGraph.Lowering.Simplification
import HybridGraph.Proofs.Lowering.Emission
/-!
# Replacing composite nodes

A decomposition emits its nodes in front of the composite node and retires it in favour of the last
emitted value (`Replaces`).  A sigmoid-weighted unit is always replaced, a Gaussian unit of one
operand unless its approximation is unknown, and a linear map only if its operands are tensors:

    g.WellFormed → node ∈ g.nodes → node.kind = .silu → … → ∃ x g', node.inputs = [x] ∧
      silu g node = .replaced g' ∧ Replaces g node (siluNodes g node.scope x) 1 g'    (silu_eq)

What the three have in common is said of any of them (`Decomposes`): it replaces or refuses exactly
the composite nodes, and what it replaces a node by are parts, in which there is nothing left to
decompose, to fold or to complete:

    Decomposes kind visit → … → (visit g node = .keep ↔ ¬ IsComposite g node)          (keep_iff)
    Decomposes kind visit → … → visit g node = .replaced g' → Expands g node g'         (expands)

A node takes no more ids than its kind demands, and its parts demand none.  So a sweep, which visits
the nodes of one kind, keeps the graph ready whether it ends or refuses a node, and refusing a node
is the only way to fail (`Decomposes.preserves_visitKind`).
-/

namespace HybridGraph

/-! ## Parts -/

/-- The kinds of the nodes into which a node of a kind is decomposed. -/
def OpKind.parts : OpKind → List OpKind
  | .linear => [.permute, .matmul, .add]
  | .silu => [.sigmoid, .mul]
  | .gelu => [.pow, .mul, .add, .tanh, .erf]
  | _ => []

/-- Parts are not decomposed further. -/
theorem OpKind.parts_of_mem_parts (kind : OpKind) : ∀ part ∈ kind.parts, part.parts = [] := by
  cases kind <;> decide

/-- So they take no ids. -/
theorem OpKind.demand_of_mem_parts (kind : OpKind) : ∀ part ∈ kind.parts, part.demand = 0 := by
  cases kind <;> decide

theorem OpKind.constant_notMem_parts (kind : OpKind) : .constant ∉ kind.parts := by
  cases kind <;> decide

theorem AttrList.mem_of_mem_ofList {entries : List (String × Attr)} {entry : String × Attr}
    (h : entry ∈ (ofList entries).entries) : entry ∈ entries := by
  have hfold : ∀ attrs : AttrList,
      entry ∈ (entries.foldl (fun attrs e => attrs.insert e.1 e.2) attrs).entries →
        entry ∈ attrs.entries ∨ entry ∈ entries := by
    clear h
    induction entries with
    | nil => exact fun _ => .inl
    | cons first rest ih =>
      intro attrs h
      rcases ih (attrs.insert first.1 first.2) h with h | h
      · rcases mem_insertEntry h with rfl | h
        · exact .inr List.mem_cons_self
        · exact .inl h
      · exact .inr (List.mem_cons_of_mem _ h)
  exact (hfold empty h).resolve_left List.not_mem_nil

namespace Decomposition

open Expansion HybridGraph.Graph

variable {g g' : Graph} {node : Node} {added : List Node} {last : Nat}

/-! ## Replacing a node -/

/-- The graph in which added nodes stand in front of a node, and the node is retired in favour of
the last value that they define. -/
def Replaces (g : Graph) (node : Node) (added : List Node) (last : Nat) (g' : Graph) : Prop :=
  ∃ before after out e, g.nodes = before ++ node :: after ∧ node.outputs = [out] ∧
    Chain g before (node :: after) node.scope added e ∧ added.length = last + 1 ∧
    g' = e.graph.retire node.id out (madeValue g last)

theorem Replaces.extends (h : Replaces g node added last g') : g.Extends g' := by
  obtain ⟨before, after, out, e, -, hout, hchain, hcount, rfl⟩ := h
  refine hchain.ahead.kept.trans (.retire hchain.ahead.wellFormed hchain.ahead.nodes hout ?_)
  rw [hchain.ahead.kept.inputs]
  exact hchain.mem_definedBy (.inr ⟨last, by omega, rfl⟩)

/-- The added nodes take one id each. -/
theorem Replaces.nextNode (h : Replaces g node added last g') :
    g'.nextNode = g.nextNode + added.length := by
  obtain ⟨before, after, out, e, -, -, hchain, -, rfl⟩ := h
  exact hchain.nextNode

/-- The node list after the change. -/
theorem Replaces.nodes (h : Replaces g node added last g') :
    ∃ before after out, g.nodes = before ++ node :: after ∧ node.outputs = [out] ∧
      g'.nodes = before ++ added ++ after.map (Node.replaceInput out (madeValue g last)) := by
  obtain ⟨before, after, out, e, hsplit, hout, hchain, -, rfl⟩ := h
  exact ⟨before, after, out, hsplit, hout,
    nodes_retire _ hchain.ahead.wellFormed.form hchain.ahead.nodes hout⟩

/-- The graph outputs after the change. -/
theorem Replaces.outputs (h : Replaces g node added last g') {out : ValueId}
    (hout : node.outputs = [out]) :
    g'.outputs = g.outputs.map fun v => if v = out then madeValue g last else v := by
  obtain ⟨before, after, other, e, -, hother, hchain, -, rfl⟩ := h
  obtain rfl : out = other := (List.cons.inj (hout.symm.trans hother)).1
  rw [← hchain.results]
  rfl

theorem Replaces.size (h : Replaces g node added last g') :
    g'.values.size = g.values.size + added.length := by
  obtain ⟨before, after, out, e, -, -, hchain, -, rfl⟩ := h
  exact hchain.size

/-- The values that exist stay as they are. -/
theorem Replaces.grows (h : Replaces g node added last g') : g.Grows g' := by
  obtain ⟨before, after, out, e, -, -, hchain, -, rfl⟩ := h
  exact hchain.grows.trans (.of_eq rfl)

/-- An expansion begins directly in front of its node. -/
theorem before?_eq (h : g.WellFormed) {before after : List Node}
    (hsplit : g.nodes = before ++ node :: after) :
    before? g node.id = some ⟨g, before.length, node.scope⟩ := by
  have hids := h.form.nodes.nodup
  rw [hsplit, List.map_append, List.map_cons, List.nodup_append] at hids
  have hbefore : ∀ n ∈ before, n.id ≠ node.id := fun n hn =>
    hids.2.2 _ (List.mem_map_of_mem hn) _ List.mem_cons_self
  have hnone : before.findIdx? (·.id = node.id) = none :=
    List.findIdx?_eq_none_iff.mpr fun n hn => by simpa using hbefore n hn
  have hposition : g.position? node.id = some before.length := by
    unfold position?
    rw [hsplit, List.findIdx?_append, hnone, List.findIdx?_cons]
    simp
  unfold before?
  rw [hposition, hsplit]
  simp

theorem chain_before (h : g.WellFormed) {before after : List Node}
    (hsplit : g.nodes = before ++ node :: after) :
    Chain g before (node :: after) node.scope [] ⟨g, before.length, node.scope⟩ := by
  have hahead : Ahead g before (node :: after) ⟨g, before.length, node.scope⟩ :=
    ⟨.refl h, hsplit, rfl⟩
  exact hahead.chain rfl

/-- Retiring a node at the end of a chain. -/
theorem replaces_finish {before after : List Node} {out : ValueId}
    {emitted : Expansion × ValueId} (hsplit : g.nodes = before ++ node :: after)
    (hout : node.outputs = [out])
    (h : Yields g before (node :: after) node.scope added last emitted) :
    ∃ g', finish node.id out emitted = .replaced g' ∧ Replaces g node added last g' := by
  obtain ⟨e, rfl, hchain, hcount⟩ := h
  exact ⟨_, rfl, before, after, out, e, hsplit, hout, hchain, hcount, rfl⟩

/-! ## Visits -/

theorem replaces_of_linear (h : g.WellFormed) (hn : node ∈ g.nodes) (hkind : node.kind = .linear)
    (hroom : g.nextNode + node.kind.demand < 2 ^ 32) (hv : linear g node = .replaced g') :
    ∃ x weight bias?, node.inputs = x :: weight :: Option.toList bias? ∧
      (∀ v ∈ node.inputs, g.isTensor v = true) ∧
      Replaces g node (linearNodes g node.scope x weight bias?)
        (if bias?.isSome then 2 else 1) g' := by
  obtain ⟨out, hout⟩ := h.exists_output hn (by rw [hkind]; rfl)
  obtain ⟨before, after, hsplit⟩ := List.append_of_mem hn
  have hreads := (h.form.nodes before node after hsplit).reads
  have hcount := h.operandCount hn (by rw [hkind]; rfl)
  rw [hkind] at hroom
  unfold linear at hv
  split at hv
  · next x weight rest hinputs =>
    have hrest : rest.head?.toList = rest := by
      rw [hinputs] at hcount
      match rest with
      | [] | [_] => rfl
      | _ :: _ :: _ =>
        simp only [List.length_cons] at hcount
        omega
    split at hv
    · cases hv
    · next htensors =>
      dsimp only at hv
      split at hv
      · cases hv
      · rw [hout, before?_eq h hsplit] at hv
        rw [hinputs] at hreads
        obtain ⟨hx, hreads⟩ := List.forall_mem_cons.mp hreads
        obtain ⟨hweight, hreads⟩ := List.forall_mem_cons.mp hreads
        obtain ⟨made, hmade, hreplaces⟩ := replaces_finish hsplit hout
          (yields_linear (chain_before h hsplit) (permutedType (g.typeOf weight))
            (g.typeOf out) hx hweight (fun bias hbias => hreads bias (List.mem_of_head? hbias))
            hroom)
        obtain rfl : made = g' := Verdict.replaced.inj (hmade.symm.trans hv)
        refine ⟨x, weight, rest.head?, by rw [hinputs, hrest], ?_, hreplaces⟩
        simpa using htensors
  · cases hv

/-- A sigmoid-weighted unit is replaced. -/
theorem silu_eq (h : g.WellFormed) (hn : node ∈ g.nodes) (hkind : node.kind = .silu)
    (hroom : g.nextNode + node.kind.demand < 2 ^ 32) :
    ∃ x g', node.inputs = [x] ∧ silu g node = .replaced g' ∧
      Replaces g node (siluNodes g node.scope x) 1 g' := by
  obtain ⟨out, hout⟩ := h.exists_output hn (by rw [hkind]; rfl)
  obtain ⟨before, after, hsplit⟩ := List.append_of_mem hn
  have hcount := h.operandCount hn (by rw [hkind]; rfl)
  obtain ⟨x, hinputs⟩ := List.length_eq_one_iff.mp (Nat.le_antisymm hcount.2 hcount.1)
  have hx := (h.form.nodes before node after hsplit).reads x (by simp [hinputs])
  rw [hkind] at hroom
  obtain ⟨g', hg', hreplaces⟩ := replaces_finish hsplit hout
    (yields_silu (chain_before h hsplit) (g.typeOf x) (g.typeOf out) hx hroom)
  refine ⟨x, g', hinputs, ?_, hreplaces⟩
  unfold silu
  rw [hinputs, hout, before?_eq h hsplit]
  exact hg'

/-- A Gaussian unit of one operand is replaced if its approximation is known. -/
theorem gelu_eq (options : LoweringOptions) (h : g.WellFormed) (hn : node ∈ g.nodes)
    (hkind : node.kind = .gelu) (hroom : g.nextNode + node.kind.demand < 2 ^ 32) {x : ValueId}
    {name : String} (hinputs : node.inputs = [x])
    (hname : node.str? "approximate" = some name) (hknown : name = "none" ∨ name = "tanh") :
    ∃ g', gelu options g node = .replaced g' ∧
      Replaces g node (geluNodes g node.scope x (name == "tanh" || options.approximateGelu))
        (if name == "tanh" || options.approximateGelu then 7 else 4) g' := by
  obtain ⟨out, hout⟩ := h.exists_output hn (by rw [hkind]; rfl)
  obtain ⟨before, after, hsplit⟩ := List.append_of_mem hn
  have hx := (h.form.nodes before node after hsplit).reads x (by simp [hinputs])
  rw [hkind] at hroom
  obtain ⟨g', hg', hreplaces⟩ := replaces_finish hsplit hout
    (yields_gelu (chain_before h hsplit) (name == "tanh" || options.approximateGelu)
      (g.typeOf x) (g.typeOf out) hx hroom)
  refine ⟨g', ?_, hreplaces⟩
  have haccepted : ¬ (name != "none" && name != "tanh") = true := by
    rcases hknown with rfl | rfl <;> simp
  unfold gelu
  rw [hinputs, hname]
  dsimp only
  rw [if_neg haccepted, hout, before?_eq h hsplit]
  exact hg'

theorem replaces_of_silu (h : g.WellFormed) (hn : node ∈ g.nodes) (hkind : node.kind = .silu)
    (hroom : g.nextNode + node.kind.demand < 2 ^ 32) (hv : silu g node = .replaced g') :
    ∃ x, Replaces g node (siluNodes g node.scope x) 1 g' := by
  obtain ⟨x, made, -, hmade, hreplaces⟩ := silu_eq h hn hkind hroom
  obtain rfl := Verdict.replaced.inj (hmade.symm.trans hv)
  exact ⟨x, hreplaces⟩

theorem replaces_of_gelu (options : LoweringOptions) (h : g.WellFormed) (hn : node ∈ g.nodes)
    (hkind : node.kind = .gelu) (hroom : g.nextNode + node.kind.demand < 2 ^ 32)
    (hv : gelu options g node = .replaced g') :
    ∃ x useTanh, Replaces g node (geluNodes g node.scope x useTanh) (if useTanh then 7 else 4)
      g' := by
  obtain ⟨x, name, hinputs, hname, hknown⟩ : ∃ x name, node.inputs = [x] ∧
      node.str? "approximate" = some name ∧ (name = "none" ∨ name = "tanh") := by
    unfold gelu at hv
    split at hv
    · next x name hinputs hname =>
      split at hv
      · cases hv
      · next haccepted =>
        refine ⟨x, name, hinputs, hname, ?_⟩
        by_contra hunknown
        simp_all
    · cases hv
  obtain ⟨made, hmade, hreplaces⟩ := gelu_eq options h hn hkind hroom hinputs hname hknown
  obtain rfl := Verdict.replaced.inj (hmade.symm.trans hv)
  exact ⟨x, _, hreplaces⟩

/-! ## Emitted nodes -/

/-- An attribute as decompositions write it. -/
inductive Written : Attr → Prop
  | float (x : Float) : Written (.float x)
  | one : Written (.int 1)
  | swap : Written (.ints [1, 0])

/-- A node as decompositions emit it for another one: its attributes are written on it, and its
second operand is an emitted value or a tensor. -/
structure IsPart (g : Graph) (whole node : Node) : Prop where
  scope : node.scope = whole.scope
  kind : node.kind ∈ whole.kind.parts
  operands : node.inputs.length ≤ 2
  folded : Defaults.isFolded node = true
  complete : ∀ entry ∈ Defaults.ofKind node.kind, node.attrs.contains entry.1 = true
  written : ∀ entry ∈ node.attrs.entries, Written entry.2
  second : ∀ y, node.inputs[1]? = some y → (∃ i, y = madeValue g i) ∨ g.isTensor y = true

theorem IsPart.kind_ne_constant {whole : Node} (h : IsPart g whole node) :
    node.kind ≠ .constant :=
  fun hkind => OpKind.constant_notMem_parts whole.kind (hkind ▸ h.kind)

section

variable {number : Nat} {kind : OpKind} {attrs : AttrList} {x y : ValueId}

theorem written_ofList {entries : List (String × Attr)} (h : ∀ entry ∈ entries, Written entry.2) :
    ∀ entry ∈ (AttrList.ofList entries).entries, Written entry.2 :=
  fun entry hentry => h entry (AttrList.mem_of_mem_ofList hentry)

theorem written_plainSum : ∀ entry ∈ plainSum.entries, Written entry.2 :=
  written_ofList (List.forall_mem_singleton.mpr .one)

theorem written_scalarAttrs (kind : OpKind) (other : Float) :
    ∀ entry ∈ (scalarAttrs kind other).entries, Written entry.2 := by
  refine written_ofList (List.forall_mem_cons.mpr ⟨.float other, ?_⟩)
  split
  · exact List.forall_mem_singleton.mpr .one
  · exact List.forall_mem_nil _

theorem isPart_one (hkind : kind ∈ node.kind.parts)
    (hfolded : Defaults.isFolded (made g node.scope number kind [x] attrs) = true)
    (hcomplete : ∀ entry ∈ Defaults.ofKind kind, attrs.contains entry.1 = true)
    (hwritten : ∀ entry ∈ attrs.entries, Written entry.2) :
    IsPart g node (made g node.scope number kind [x] attrs) :=
  ⟨rfl, hkind, Nat.le_succ 1, hfolded, hcomplete, hwritten, nofun⟩

theorem isPart_two (hkind : kind ∈ node.kind.parts)
    (hfolded : Defaults.isFolded (made g node.scope number kind [x, y] attrs) = true)
    (hcomplete : ∀ entry ∈ Defaults.ofKind kind, attrs.contains entry.1 = true)
    (hwritten : ∀ entry ∈ attrs.entries, Written entry.2)
    (hy : (∃ i, y = madeValue g i) ∨ g.isTensor y = true) :
    IsPart g node (made g node.scope number kind [x, y] attrs) := by
  refine ⟨rfl, hkind, Nat.le_refl 2, hfolded, hcomplete, hwritten, ?_⟩
  rintro _ ⟨⟩
  exact hy

theorem isPart_linearNodes (hkind : node.kind = .linear) {weight : ValueId} {bias? : Option ValueId}
    (hbias : ∀ bias ∈ bias?, g.isTensor bias = true) :
    ∀ n ∈ linearNodes g node.scope x weight bias?, IsPart g node n := by
  have hparts : [OpKind.permute, .matmul, .add] ⊆ node.kind.parts := hkind ▸ List.Subset.refl _
  have hpermuted : IsPart g node (made g node.scope 0 .permute [weight]
      (.ofList [("dims", .ints [1, 0])])) :=
    isPart_one (hparts (by decide)) rfl (by decide)
      (written_ofList (List.forall_mem_singleton.mpr .swap))
  have hproduct : IsPart g node (made g node.scope 1 .matmul [x, madeValue g 0] .empty) :=
    isPart_two (hparts (by decide)) rfl (by decide) (List.forall_mem_nil _) (.inl ⟨0, rfl⟩)
  unfold linearNodes
  refine List.forall_mem_append.mpr
    ⟨List.forall_mem_cons.mpr ⟨hpermuted, List.forall_mem_singleton.mpr hproduct⟩, ?_⟩
  cases bias? with
  | none => exact List.forall_mem_nil _
  | some bias =>
    exact List.forall_mem_singleton.mpr
      (isPart_two (hparts (by decide)) rfl (by decide) written_plainSum (.inr (hbias bias rfl)))

theorem isPart_siluNodes (hkind : node.kind = .silu) :
    ∀ n ∈ siluNodes g node.scope x, IsPart g node n := by
  have hparts : [OpKind.sigmoid, .mul] ⊆ node.kind.parts := hkind ▸ List.Subset.refl _
  refine List.forall_mem_cons.mpr ⟨?_, List.forall_mem_singleton.mpr ?_⟩
  · exact isPart_one (hparts (by decide)) rfl (by decide) (List.forall_mem_nil _)
  · exact isPart_two (hparts (by decide)) rfl (by decide) (List.forall_mem_nil _) (.inl ⟨0, rfl⟩)

theorem isPart_geluNodes (hkind : node.kind = .gelu) {useTanh : Bool} :
    ∀ n ∈ geluNodes g node.scope x useTanh, IsPart g node n := by
  have hparts : [OpKind.pow, .mul, .add, .tanh, .erf] ⊆ node.kind.parts :=
    hkind ▸ List.Subset.refl _
  have hmul : ∀ number y other,
      IsPart g node (made g node.scope number .mul [y] (scalarAttrs .mul other)) := fun _ _ _ =>
    isPart_one (hparts (by decide)) rfl (List.forall_mem_nil _) (written_scalarAttrs _ _)
  have hhalf : ∀ inner, ∀ n ∈ halfNodes g node.scope x inner, IsPart g node n := by
    intro inner
    refine List.forall_mem_cons.mpr ⟨?_, List.forall_mem_cons.mpr
      ⟨hmul _ _ _, List.forall_mem_singleton.mpr ?_⟩⟩
    · exact isPart_one (hparts (by decide)) rfl (by decide) (written_scalarAttrs _ _)
    · exact isPart_two (hparts (by decide)) rfl (by decide) (List.forall_mem_nil _) (.inl ⟨_, rfl⟩)
  cases useTanh with
  | false =>
    refine List.forall_mem_append.mpr ⟨List.forall_mem_cons.mpr
      ⟨hmul _ _ _, List.forall_mem_singleton.mpr ?_⟩, hhalf 1⟩
    exact isPart_one (hparts (by decide)) rfl (by decide) (List.forall_mem_nil _)
  | true =>
    refine List.forall_mem_append.mpr ⟨?_, hhalf 4⟩
    unfold tanhTermNodes
    simp only [List.forall_mem_cons]
    refine ⟨?_, hmul _ _ _, ?_, hmul _ _ _, ?_, List.forall_mem_nil _⟩
    · exact isPart_one (hparts (by decide)) rfl (by decide) (written_scalarAttrs _ _)
    · exact isPart_two (hparts (by decide)) rfl (by decide) written_plainSum (.inl ⟨1, rfl⟩)
    · exact isPart_one (hparts (by decide)) rfl (by decide) (List.forall_mem_nil _)

end

/-! ## Expansions -/

/-- The newest value of the second graph has the type that a value has in the first one. -/
def Retypes (g : Graph) (v : ValueId) (g' : Graph) : Prop :=
  ∃ values, g'.values = Array.push values ⟨g.typeOf v, none⟩

/-- A composite node gave way to a few parts, the last of which has a result of its type. -/
def Expands (g : Graph) (node : Node) (g' : Graph) : Prop :=
  ∃ added last out, node.outputs = [out] ∧ Replaces g node added last g' ∧
    last < node.kind.demand ∧ Retypes g out g' ∧ ∀ n ∈ added, IsPart g node n

theorem Expands.preserves (h : Expands g node g') : g.Preserves g' := by
  obtain ⟨added, last, _, -, hreplaces, hlast, -, hparts⟩ := h
  refine ⟨hreplaces.extends, ?_⟩
  obtain ⟨_, _, _, _, -, -, -, hcount, -⟩ := id hreplaces
  obtain ⟨before, after, out, hsplit, -, hnodes⟩ := hreplaces.nodes
  have hadded : Node.totalDemand added = 0 := Node.totalDemand_eq_zero fun n hn =>
    OpKind.demand_of_mem_parts node.kind n.kind (hparts n hn).kind
  have hkinds : ∀ n ∈ after, (n.replaceInput out (madeValue g last)).kind = n.kind :=
    fun _ _ => rfl
  unfold demand
  rw [hreplaces.nextNode, hnodes, hsplit, Node.totalDemand_append, Node.totalDemand_append,
    Node.totalDemand_append, Node.totalDemand_cons, hadded, Node.totalDemand_map hkinds]
  omega

theorem retypes_of_linear {out : ValueId} (hout : node.outputs = [out])
    (hv : linear g node = .replaced g') : Retypes g out g' := by
  unfold linear at hv
  split at hv
  · next x weight rest _ =>
    split at hv
    · cases hv
    · dsimp only at hv
      split at hv
      · cases hv
      · split at hv
        · next houtputs _ =>
          obtain ⟨rfl, -⟩ := List.cons.inj (hout.symm.trans houtputs)
          obtain rfl := Verdict.replaced.inj hv
          cases rest.head? <;> exact ⟨_, rfl⟩
        · cases hv
  · cases hv

theorem retypes_of_silu {out : ValueId} (hout : node.outputs = [out])
    (hv : silu g node = .replaced g') : Retypes g out g' := by
  unfold silu at hv
  split at hv
  · next houtputs _ =>
    obtain ⟨rfl, -⟩ := List.cons.inj (hout.symm.trans houtputs)
    obtain rfl := Verdict.replaced.inj hv
    exact ⟨_, rfl⟩
  · cases hv

theorem retypes_of_gelu {options : LoweringOptions} {out : ValueId} (hout : node.outputs = [out])
    (hv : gelu options g node = .replaced g') : Retypes g out g' := by
  unfold gelu at hv
  split at hv
  · split at hv
    · cases hv
    · split at hv
      · next houtputs _ =>
        obtain ⟨rfl, -⟩ := List.cons.inj (hout.symm.trans houtputs)
        obtain rfl := Verdict.replaced.inj hv
        exact ⟨_, rfl⟩
      · cases hv
  · cases hv

/-! ## Composite nodes -/

/-- A decomposition replaces the node or refuses it. -/
def IsComposite (g : Graph) (node : Node) : Prop :=
  match node.kind with
  | .linear => ∀ v ∈ node.inputs, g.isTensor v = true
  | .silu => True
  | .gelu => node.inputs.length = 1 ∧ (node.str? "approximate").isSome = true
  | _ => False

theorem linear_eq_keep_iff (h : g.WellFormed) (hn : node ∈ g.nodes) (hkind : node.kind = .linear) :
    linear g node = .keep ↔ ¬ IsComposite g node := by
  obtain ⟨out, hout⟩ := h.exists_output hn (by rw [hkind]; rfl)
  obtain ⟨before, after, hsplit⟩ := List.append_of_mem hn
  obtain ⟨hcount, -⟩ := h.operandCount hn (by rw [hkind]; rfl)
  have hcomposite : IsComposite g node ↔ node.inputs.all g.isTensor = true := by
    unfold IsComposite
    rw [hkind, List.all_eq_true]
  rw [hcomposite]
  unfold linear
  match hinputs : node.inputs with
  | [] | [_] => simp [hinputs] at hcount
  | x :: weight :: rest =>
    dsimp only
    split
    · next hnot =>
      rw [Bool.not_eq_true'] at hnot
      exact iff_of_true rfl (by rw [hnot]; exact Bool.false_ne_true)
    · next hall =>
      refine iff_of_false ?_ (by simpa using hall)
      split
      · exact fun hkeep => nomatch hkeep
      · rw [hout, before?_eq h hsplit]
        exact fun hkeep => nomatch hkeep

theorem silu_eq_keep_iff (h : g.WellFormed) (hn : node ∈ g.nodes) (hkind : node.kind = .silu) :
    silu g node = .keep ↔ ¬ IsComposite g node := by
  obtain ⟨out, hout⟩ := h.exists_output hn (by rw [hkind]; rfl)
  obtain ⟨before, after, hsplit⟩ := List.append_of_mem hn
  have hcount := h.operandCount hn (by rw [hkind]; rfl)
  obtain ⟨x, hinputs⟩ := List.length_eq_one_iff.mp (Nat.le_antisymm hcount.2 hcount.1)
  have hcomposite : IsComposite g node := by
    unfold IsComposite
    rw [hkind]
    trivial
  refine iff_of_false (fun hkeep => ?_) (not_not_intro hcomposite)
  unfold silu at hkeep
  rw [hinputs, hout, before?_eq h hsplit] at hkeep
  cases hkeep

theorem gelu_eq_keep_iff (options : LoweringOptions) (h : g.WellFormed) (hn : node ∈ g.nodes)
    (hkind : node.kind = .gelu) : gelu options g node = .keep ↔ ¬ IsComposite g node := by
  obtain ⟨out, hout⟩ := h.exists_output hn (by rw [hkind]; rfl)
  obtain ⟨before, after, hsplit⟩ := List.append_of_mem hn
  have hcomposite : IsComposite g node ↔
      node.inputs.length = 1 ∧ (node.str? "approximate").isSome = true := by
    unfold IsComposite
    rw [hkind]
  rw [hcomposite]
  unfold gelu
  split
  · next x name hinputs hname =>
    refine iff_of_false ?_ (by simp [hinputs, hname])
    split
    · exact fun hkeep => nomatch hkeep
    · rw [hout, before?_eq h hsplit]
      exact fun hkeep => nomatch hkeep
  · next hother =>
    refine iff_of_true rfl fun ⟨hlength, hsome⟩ => ?_
    obtain ⟨x, hinputs⟩ := List.length_eq_one_iff.mp hlength
    obtain ⟨name, hname⟩ := Option.isSome_iff_exists.mp hsome
    exact hother x name hinputs hname

/-! ## Decompositions -/

/-- The kinds that are decomposed, and how their nodes are visited. -/
inductive Decomposes : OpKind → (Graph → Node → Verdict) → Prop
  | linear : Decomposes .linear linear
  | silu : Decomposes .silu silu
  | gelu (options : LoweringOptions) : Decomposes .gelu (gelu options)

namespace Decomposes

variable {kind : OpKind} {visit : Graph → Node → Verdict}

/-- A decomposition keeps exactly the nodes that are not composite. -/
theorem keep_iff (hd : Decomposes kind visit) (h : g.WellFormed) (hn : node ∈ g.nodes)
    (hkind : node.kind = kind) : visit g node = .keep ↔ ¬ IsComposite g node := by
  cases hd with
  | linear => exact linear_eq_keep_iff h hn hkind
  | silu => exact silu_eq_keep_iff h hn hkind
  | gelu options => exact gelu_eq_keep_iff options h hn hkind

/-- A decomposition that replaces a node expands it. -/
theorem expands (hd : Decomposes kind visit) (h : g.WellFormed) (hn : node ∈ g.nodes)
    (hkind : node.kind = kind) (hroom : g.nextNode + node.kind.demand < 2 ^ 32)
    (hv : visit g node = .replaced g') : Expands g node g' := by
  cases hd with
  | linear =>
    obtain ⟨out, hout⟩ := h.exists_output hn (by rw [hkind]; rfl)
    obtain ⟨x, weight, bias?, hinputs, htensors, hreplaces⟩ :=
      replaces_of_linear h hn hkind hroom hv
    refine ⟨_, _, out, hout, hreplaces, hkind ▸ by split <;> decide, retypes_of_linear hout hv,
      isPart_linearNodes hkind fun bias hbias => htensors bias ?_⟩
    rw [hinputs, Option.mem_def.mp hbias]
    exact List.mem_cons_of_mem _ (List.mem_cons_of_mem _ List.mem_cons_self)
  | silu =>
    obtain ⟨out, hout⟩ := h.exists_output hn (by rw [hkind]; rfl)
    obtain ⟨x, hreplaces⟩ := replaces_of_silu h hn hkind hroom hv
    exact ⟨_, _, out, hout, hreplaces, hkind ▸ by decide, retypes_of_silu hout hv,
      isPart_siluNodes hkind⟩
  | gelu options =>
    obtain ⟨out, hout⟩ := h.exists_output hn (by rw [hkind]; rfl)
    obtain ⟨x, useTanh, hreplaces⟩ := replaces_of_gelu options h hn hkind hroom hv
    exact ⟨_, _, out, hout, hreplaces, hkind ▸ by split <;> decide, retypes_of_gelu hout hv,
      isPart_geluNodes hkind⟩

end Decomposes

/-! ## Sweeps -/

theorem ofKind_filter (h : g.WellFormed) (kind : OpKind) :
    g.OfKind (· = kind) ((g.nodes.filter (·.kind = kind)).map Node.id) :=
  ofKind_map_id h List.filter_sublist.subset fun n hn => by simpa using (List.mem_filter.mp hn).2

namespace Decomposes

variable {kind : OpKind} {visit : Graph → Node → Verdict}

/-- What a sweep does with the first of its nodes: it passes over nodes that are not composite, goes
on behind an expansion, or stops. -/
theorem visitAll_cons (hd : Decomposes kind visit) (h : g.Ready) (pass : String) (count : Nat)
    {id : NodeId} {ids : List NodeId} (hids : g.OfKind (· = kind) (id :: ids)) :
    ((∀ node ∈ g.nodes, node.id = id → ¬ IsComposite g node) ∧
      visitAll pass visit g count (id :: ids) = visitAll pass visit g count ids) ∨
    (∃ node ∈ g.nodes, node.id = id ∧ node.kind = kind ∧ IsComposite g node ∧
      ((∃ g', visit g node = .replaced g' ∧ Expands g node g' ∧
        visitAll pass visit g count (id :: ids) = visitAll pass visit g' (count + 1) ids) ∨
      ∃ fault, visitAll pass visit g count (id :: ids) =
        (g, .error (.unexpected pass id kind fault)))) := by
  rw [visitAll]
  cases hfind : g.node? id with
  | none =>
    refine .inl ⟨fun node hn hid => ?_, rfl⟩
    rw [← hid, node?_id h.form hn] at hfind
    cases hfind
  | some node =>
    obtain ⟨hn, rfl⟩ := mem_of_node? hfind
    have hkind := (hids _ List.mem_cons_self).2 node hn rfl
    have hkept := hd.keep_iff h.toWellFormed hn hkind
    dsimp only
    cases hv : visit g node with
    | keep =>
      refine .inl ⟨fun other ho hid => ?_, rfl⟩
      rw [h.form.nodes.eq_of_id ho hn hid]
      exact hkept.mp hv
    | replaced g' =>
      have hcomposite := not_not.mp (mt hkept.mpr (by rw [hv]; exact fun hkeep => nomatch hkeep))
      have hexpands := hd.expands h.toWellFormed hn hkind (h.room_of_mem hn) hv
      exact .inr ⟨node, hn, rfl, hkind, hcomposite, .inl ⟨g', hv, hexpands, rfl⟩⟩
    | refuse fault =>
      have hcomposite := not_not.mp (mt hkept.mpr (by rw [hv]; exact fun hkeep => nomatch hkeep))
      exact .inr ⟨node, hn, rfl, hkind, hcomposite, .inr ⟨fault, hkind ▸ rfl⟩⟩

/-- A sweep over nodes of a kind keeps the graph ready and has every property that its visits
keep; it fails only by refusing a node. -/
theorem visitAll_induction (hd : Decomposes kind visit) (pass : String) {p : Graph → Prop}
    (hvisit : ∀ {g g' : Graph} {node : Node}, g.Ready → p g → node ∈ g.nodes →
      node.kind = kind → visit g node = .replaced g' → Expands g node g' → p g')
    {ids : List NodeId} {count : Nat} (h : g.Ready) (hp : p g)
    (hids : g.OfKind (· = kind) ids) :
    g.Preserves (visitAll pass visit g count ids).1 ∧ p (visitAll pass visit g count ids).1 ∧
      ∀ e, (visitAll pass visit g count ids).2 = .error e →
        ∃ id fault, e = .unexpected pass id kind fault := by
  induction ids generalizing g count with
  | nil =>
    refine ⟨.refl h.toWellFormed, hp, fun e he => ?_⟩
    cases he
  | cons id ids ih =>
    have hrest : g.OfKind (· = kind) ids := fun other ho => hids other (List.mem_cons_of_mem _ ho)
    rcases hd.visitAll_cons h pass count hids with
      ⟨-, heq⟩ | ⟨node, hn, -, hkind, -, ⟨g', hv, hexpands, heq⟩ | ⟨fault, heq⟩⟩
    · rw [heq]
      exact ih h hp hrest
    · have hfirst := hexpands.preserves
      rw [heq]
      exact And.imp_left hfirst.trans (ih (hfirst.ready h)
        (hvisit h hp hn hkind hv hexpands) (hrest.of_preserves hfirst))
    · rw [heq]
      exact ⟨.refl h.toWellFormed, hp, fun e he => ⟨id, fault, (Except.error.inj he).symm⟩⟩

theorem visitKind_induction (hd : Decomposes kind visit) (pass : String) {p : Graph → Prop}
    (hvisit : ∀ {g g' : Graph} {node : Node}, g.Ready → p g → node ∈ g.nodes →
      node.kind = kind → visit g node = .replaced g' → Expands g node g' → p g')
    (h : g.Ready) (hp : p g) : p (visitKind pass kind visit g).1 :=
  (hd.visitAll_induction pass hvisit h hp (ofKind_filter h.toWellFormed kind)).2.1

theorem preserves_visitKind (hd : Decomposes kind visit) (pass : String) (h : g.Ready) :
    g.Preserves (visitKind pass kind visit g).1 ∧
      ∀ e, (visitKind pass kind visit g).2 = .error e →
        ∃ id fault, e = .unexpected pass id kind fault := by
  obtain ⟨hkept, -, hfail⟩ := hd.visitAll_induction pass (p := fun _ => True)
    (fun _ _ _ _ _ _ => trivial) h trivial (ofKind_filter h.toWellFormed kind)
  exact ⟨hkept, hfail⟩

end Decomposes

end Decomposition

end HybridGraph
