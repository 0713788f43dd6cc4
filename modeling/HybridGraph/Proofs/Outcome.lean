import Mathlib.Data.List.Forall2
/-!
# Computations that may fail

When a computation in `Except` succeeds: one lemma for each way in which such computations are put
together.
-/

namespace HybridGraph.Outcome

variable {α β ε ε' : Type}

theorem bind_eq_ok {x : Except ε α} {f : α → Except ε β} {b : β} :
    (x >>= f) = .ok b ↔ ∃ a, x = .ok a ∧ f a = .ok b := by
  cases x with
  | error e => simp [bind, Except.bind]
  | ok a => simp [bind, Except.bind]

/-- Continuations need to agree on what was computed only. -/
theorem bind_congr {x : Except ε α} {f g : α → Except ε β} (h : ∀ a, x = .ok a → f a = g a) :
    (x >>= f) = (x >>= g) := by
  cases x with
  | error e => rfl
  | ok a => exact h a rfl

theorem pure_eq_ok {a b : α} : (pure a : Except ε α) = .ok b ↔ a = b := by
  simp [pure, Except.pure]

/-- After a step whose answer is known. -/
theorem bind_of_eq_ok {x : Except ε α} {a : α} (h : x = .ok a) (f : α → Except ε β) :
    (x >>= f) = f a := by
  rw [h]
  rfl

/-- A check that throws lets the rest run if it does not apply. -/
theorem guard_eq_ok {c : Prop} [Decidable c] {e : ε} {rest : PUnit → Except ε α} {a : α} :
    (if c then throw e >>= rest else rest ⟨⟩) = .ok a ↔ ¬ c ∧ rest ⟨⟩ = .ok a := by
  by_cases h : c
  · simp [h, throw, throwThe, MonadExceptOf.throw, bind, Except.bind]
  · simp [h]

theorem mapError_eq_ok {x : Except ε α} {f : ε → ε'} {a : α} :
    x.mapError f = .ok a ↔ x = .ok a := by
  cases x with
  | error e => simp [Except.mapError]
  | ok a => simp [Except.mapError]

theorem map_eq_ok {x : Except ε α} {f : α → β} {b : β} :
    x.map f = .ok b ↔ ∃ a, x = .ok a ∧ f a = b := by
  cases x with
  | error e => simp [Except.map]
  | ok a => simp [Except.map]

/-- Errors may be translated step by step. -/
theorem mapError_bind {x : Except ε α} {f : α → Except ε β} {h : ε → ε'} :
    (x >>= f).mapError h = x.mapError h >>= fun a => (f a).mapError h := by
  cases x with
  | error e => rfl
  | ok a => rfl

theorem mapError_mapError {ε'' : Type} {x : Except ε α} {f : ε → ε'} {g : ε' → ε''} :
    (x.mapError f).mapError g = x.mapError (g ∘ f) := by
  cases x with
  | error e => rfl
  | ok a => rfl

theorem toOption_eq_some {x : Except ε α} {a : α} : x.toOption = some a ↔ x = .ok a := by
  cases x with
  | error e => simp [Except.toOption]
  | ok b => simp [Except.toOption]

theorem forM_eq_ok {f : α → Except ε PUnit} {xs : List α} :
    xs.forM f = .ok () ↔ ∀ x ∈ xs, f x = .ok () := by
  induction xs with
  | nil => simp [List.forM, pure_eq_ok]
  | cons x xs ih =>
    show (f x >>= fun _ => xs.forM f) = .ok () ↔ _
    rw [bind_eq_ok, List.forall_mem_cons, ← ih]
    constructor
    · rintro ⟨⟨⟩, hx, hxs⟩
      exact ⟨hx, hxs⟩
    · rintro ⟨hx, hxs⟩
      exact ⟨(), hx, hxs⟩

theorem mapM_cons_eq_ok {f : α → Except ε β} {x : α} {xs : List α} {ys : List β} :
    (x :: xs).mapM f = .ok ys ↔
      ∃ y rest, f x = .ok y ∧ xs.mapM f = .ok rest ∧ y :: rest = ys := by
  rw [List.mapM_cons, bind_eq_ok]
  constructor
  · rintro ⟨y, hy, h⟩
    obtain ⟨rest, hrest, h⟩ := bind_eq_ok.mp h
    exact ⟨y, rest, hy, hrest, pure_eq_ok.mp h⟩
  · rintro ⟨y, rest, hy, hrest, h⟩
    exact ⟨y, hy, bind_eq_ok.mpr ⟨rest, hrest, pure_eq_ok.mpr h⟩⟩

/-- A list is mapped exactly if every element is. -/
theorem mapM_eq_ok {f : α → Except ε β} {xs : List α} {ys : List β} :
    xs.mapM f = .ok ys ↔ List.Forall₂ (fun x y => f x = .ok y) xs ys := by
  induction xs generalizing ys with
  | nil => simp [pure, Except.pure, eq_comm]
  | cons x xs ih =>
    rw [mapM_cons_eq_ok]
    constructor
    · rintro ⟨y, rest, hy, hrest, rfl⟩
      exact .cons hy (ih.mp hrest)
    · rintro (_ | ⟨hy, hrest⟩)
      exact ⟨_, _, hy, ih.mpr hrest, rfl⟩

/-- Errors may be translated element by element. -/
theorem mapError_mapM {f : α → Except ε β} {h : ε → ε'} {xs : List α} :
    (xs.mapM f).mapError h = xs.mapM fun x => (f x).mapError h := by
  induction xs with
  | nil => rfl
  | cons x xs ih =>
    rw [List.mapM_cons, List.mapM_cons, mapError_bind]
    refine bind_congr fun y _ => ?_
    rw [mapError_bind, ih]
    rfl

/-- Whatever is in a list has a partner. -/
theorem exists_of_forall₂ {r : α → β → Prop} {xs : List α} {ys : List β} {x : α}
    (h : List.Forall₂ r xs ys) (hx : x ∈ xs) : ∃ y ∈ ys, r x y := by
  induction h with
  | nil => cases hx
  | @cons a b as bs hab _ ih =>
    rcases List.mem_cons.mp hx with rfl | hx
    · exact ⟨b, List.mem_cons_self, hab⟩
    · obtain ⟨y, hy, hr⟩ := ih hx
      exact ⟨y, List.mem_cons_of_mem b hy, hr⟩

/-- A list is mapped to something exactly if every element is. -/
theorem mapM_eq_some {f : α → Option β} {xs : List α} {ys : List β} :
    xs.mapM f = some ys ↔ List.Forall₂ (fun x y => f x = some y) xs ys := by
  induction xs generalizing ys with
  | nil => simp [eq_comm]
  | cons x xs ih =>
    rw [List.mapM_cons]
    constructor
    · intro h
      obtain ⟨y, hy, h⟩ := Option.bind_eq_some_iff.mp h
      obtain ⟨rest, hrest, h⟩ := Option.bind_eq_some_iff.mp h
      obtain rfl := Option.some.inj h
      exact .cons hy (ih.mp hrest)
    · rintro (_ | ⟨hy, hrest⟩)
      exact Option.bind_eq_some_iff.mpr
        ⟨_, hy, Option.bind_eq_some_iff.mpr ⟨_, ih.mpr hrest, rfl⟩⟩

/-- What a list is mapped to comes from its elements. -/
theorem exists_of_mem_mapM {f : α → Option β} {xs : List α} {ys : List β}
    (h : xs.mapM f = some ys) {y : β} (hy : y ∈ ys) : ∃ x ∈ xs, f x = some y :=
  exists_of_forall₂ (mapM_eq_some.mp h).flip hy

/-- The partner of an element stands at the same place. -/
theorem exists_getElem?_of_forall₂ {r : α → β → Prop} {xs : List α} {ys : List β} {i : Nat} {x : α}
    (h : List.Forall₂ r xs ys) (hx : xs[i]? = some x) : ∃ y, ys[i]? = some y ∧ r x y := by
  induction h generalizing i with
  | nil => cases hx
  | @cons a b _ _ hab _ ih =>
    cases i with
    | zero =>
      obtain rfl := Option.some.inj hx
      exact ⟨b, rfl, hab⟩
    | succ i => exact ih hx

/-- Lists of one length are related once the members at each place are. -/
theorem forall₂_iff_getElem? {r : α → β → Prop} {xs : List α} {ys : List β} :
    List.Forall₂ r xs ys ↔
      ys.length = xs.length ∧
        ∀ (i : Nat) x, xs[i]? = some x → ∃ y, ys[i]? = some y ∧ r x y := by
  constructor
  · exact fun h => ⟨h.length_eq.symm, fun i x hx => exists_getElem?_of_forall₂ h hx⟩
  · rintro ⟨hlen, hall⟩
    refine List.forall₂_iff_get.mpr ⟨hlen.symm, fun i hx hy => ?_⟩
    obtain ⟨y, hi, hr⟩ := hall i xs[i] (List.getElem?_eq_getElem hx)
    obtain rfl : ys[i] = y := Option.some_inj.mp (List.getElem?_eq_getElem hy ▸ hi)
    exact hr

theorem forall₂_and {p q : α → β → Prop} {xs : List α} {ys : List β} (hp : List.Forall₂ p xs ys)
    (hq : List.Forall₂ q xs ys) : List.Forall₂ (fun x y => p x y ∧ q x y) xs ys := by
  rw [List.forall₂_iff_zip] at hp hq ⊢
  exact ⟨hp.1, fun hmem => ⟨hp.2 hmem, hq.2 hmem⟩⟩

/-- Partners of the same elements are related if those of each element are. -/
theorem forall₂_of_forall₂ {γ : Type} {p : α → β → Prop} {q : α → γ → Prop} {r : β → γ → Prop}
    {xs : List α} {ys : List β} {zs : List γ} (hp : List.Forall₂ p xs ys)
    (hq : List.Forall₂ q xs zs) (h : ∀ x ∈ xs, ∀ y z, p x y → q x z → r y z) :
    List.Forall₂ r ys zs := by
  induction hp generalizing zs with
  | nil =>
    obtain rfl := List.forall₂_nil_left_iff.mp hq
    exact .nil
  | @cons x y xs ys hxy _ ih =>
    obtain ⟨z, zs, hxz, hrest, rfl⟩ := List.forall₂_cons_left_iff.mp hq
    exact .cons (h x List.mem_cons_self y z hxy hxz)
      (ih hrest fun x' hx' => h x' (List.mem_cons_of_mem x hx'))

theorem foldlM_cons_eq_ok {f : β → α → Except ε β} {b c : β} {x : α} {xs : List α} :
    (x :: xs).foldlM f b = .ok c ↔ ∃ next, f b x = .ok next ∧ xs.foldlM f next = .ok c := by
  rw [List.foldlM_cons, bind_eq_ok]

theorem foldlM_append_eq_ok {f : β → α → Except ε β} {b c : β} {xs ys : List α} :
    (xs ++ ys).foldlM f b = .ok c ↔
      ∃ next, xs.foldlM f b = .ok next ∧ ys.foldlM f next = .ok c := by
  rw [List.foldlM_append, bind_eq_ok]

/-- A computation that answers at every step folds as a function does. -/
theorem foldlM_of_eq_ok {f : β → α → Except ε β} {g : β → α → β} {xs : List α}
    (h : ∀ b, ∀ x ∈ xs, f b x = .ok (g b x)) (b : β) : xs.foldlM f b = .ok (xs.foldl g b) := by
  induction xs generalizing b with
  | nil => rfl
  | cons x xs ih =>
    obtain ⟨hx, hxs⟩ := List.forall_mem_cons.mp (fun x hx b => h b x hx)
    exact foldlM_cons_eq_ok.mpr ⟨_, hx b, ih (fun b x hmem => hxs x hmem b) _⟩

/-- What every step keeps is kept by the whole fold. -/
theorem foldlM_induction {f : β → α → Except ε β} {p : β → Prop}
    (hstep : ∀ {b x c}, p b → f b x = .ok c → p c) {b c : β} {xs : List α} (hb : p b)
    (h : xs.foldlM f b = .ok c) : p c := by
  induction xs generalizing b with
  | nil => exact pure_eq_ok.mp h ▸ hb
  | cons x xs ih =>
    obtain ⟨next, hnext, hrest⟩ := foldlM_cons_eq_ok.mp h
    exact ih (hstep hb hnext) hrest

/-- Folds agree up to a translation of errors if their steps do. -/
theorem mapError_foldlM_congr {α' : Type} {f : β → α → Except ε β} {g : β → α' → Except ε β}
    {k : α → α'} {h : ε → ε'} (hstep : ∀ b x, (f b x).mapError h = (g b (k x)).mapError h)
    (b : β) (xs : List α) :
    (xs.foldlM f b).mapError h = ((xs.map k).foldlM g b).mapError h := by
  induction xs generalizing b with
  | nil => rfl
  | cons x xs ih =>
    rw [List.map_cons, List.foldlM_cons, List.foldlM_cons, mapError_bind, mapError_bind, hstep]
    exact bind_congr fun next _ => ih next

/-! ## Failures -/

theorem bind_eq_error {x : Except ε α} {f : α → Except ε β} {e : ε} :
    (x >>= f) = .error e ↔ x = .error e ∨ ∃ a, x = .ok a ∧ f a = .error e := by
  cases x with
  | error e' => simp [bind, Except.bind]
  | ok a => simp [bind, Except.bind]

theorem mapError_eq_error {x : Except ε α} {f : ε → ε'} {e : ε'} :
    x.mapError f = .error e ↔ ∃ cause, x = .error cause ∧ f cause = e := by
  cases x with
  | error cause => simp [Except.mapError]
  | ok a => simp [Except.mapError]

/-- A list is not mapped because one of its elements is not. -/
theorem exists_of_mapM_eq_error {f : α → Except ε β} {xs : List α} {e : ε}
    (h : xs.mapM f = .error e) : ∃ x ∈ xs, f x = .error e := by
  induction xs with
  | nil => cases h
  | cons x xs ih =>
    rw [List.mapM_cons] at h
    rcases bind_eq_error.mp h with h | ⟨y, -, h⟩
    · exact ⟨x, List.mem_cons_self, h⟩
    · rcases bind_eq_error.mp h with h | ⟨ys, -, h⟩
      · obtain ⟨x', hx', h⟩ := ih h
        exact ⟨x', List.mem_cons_of_mem _ hx', h⟩
      · cases h

/-- A check of a list fails at one of its elements. -/
theorem exists_of_forM_eq_error {f : α → Except ε Unit} {xs : List α} {e : ε}
    (h : xs.forM f = .error e) : ∃ x ∈ xs, f x = .error e := by
  induction xs with
  | nil => cases h
  | cons x xs ih =>
    have h : (f x >>= fun _ => xs.forM f) = .error e := h
    rcases bind_eq_error.mp h with h | ⟨_, -, h⟩
    · exact ⟨x, List.mem_cons_self, h⟩
    · obtain ⟨x', hx', h⟩ := ih h
      exact ⟨x', List.mem_cons_of_mem _ hx', h⟩

/-- A fold fails in one of its steps, after those before it have succeeded. -/
theorem exists_of_foldlM_eq_error {f : β → α → Except ε β} {b : β} {xs : List α} {e : ε}
    (h : xs.foldlM f b = .error e) : ∃ front x back c,
      xs = front ++ x :: back ∧ front.foldlM f b = .ok c ∧ f c x = .error e := by
  induction xs generalizing b with
  | nil => cases h
  | cons x xs ih =>
    rw [List.foldlM_cons] at h
    rcases bind_eq_error.mp h with h | ⟨next, hnext, h⟩
    · exact ⟨[], x, xs, b, rfl, rfl, h⟩
    · obtain ⟨front, y, back, c, rfl, hfront, h⟩ := ih h
      exact ⟨x :: front, y, back, c, rfl, foldlM_cons_eq_ok.mpr ⟨next, hnext, hfront⟩, h⟩

section

variable {p : ε → Prop}

/-- Whatever a computation fails with has a property. -/
def FailsWith (p : ε → Prop) (r : Except ε α) : Prop := ∀ e, r = .error e → p e

namespace FailsWith

variable {r : Except ε α}

theorem ok (a : α) : FailsWith p (.ok a) := by
  intro e he
  cases he

theorem any (r : Except ε α) : FailsWith (fun _ => True) r := fun _ _ => trivial

theorem error {e : ε} (h : p e) : FailsWith p (.error e : Except ε α) := by
  intro e' he
  cases he
  exact h

/-- What comes second may rely on the answer that came first. -/
theorem bind_of_ok {f : α → Except ε β} (h : FailsWith p r)
    (hf : ∀ a, r = .ok a → FailsWith p (f a)) : FailsWith p (r >>= f) := by
  intro e he
  rcases bind_eq_error.mp he with he | ⟨a, ha, he⟩
  · exact h e he
  · exact hf a ha e he

theorem bind {f : α → Except ε β} (h : FailsWith p r) (hf : ∀ a, FailsWith p (f a)) :
    FailsWith p (r >>= f) :=
  bind_of_ok h fun a _ => hf a

/-- A check that throws, and the rest. -/
theorem guard {c : Prop} [Decidable c] {e : ε} {rest : PUnit → Except ε α} (he : p e)
    (h : FailsWith p (rest ⟨⟩)) : FailsWith p (if c then throw e >>= rest else rest ⟨⟩) := by
  split
  · exact error he
  · exact h

theorem map {f : α → β} (h : FailsWith p r) : FailsWith p (r.map f) := by
  intro e he
  cases r with
  | error cause => exact h e (congrArg Except.error (Except.error.inj he))
  | ok a => cases he

theorem mapError {q : ε' → Prop} {f : ε → ε'} (h : FailsWith p r) (hf : ∀ e, p e → q (f e)) :
    FailsWith q (r.mapError f) := by
  intro e he
  obtain ⟨cause, hcause, rfl⟩ := mapError_eq_error.mp he
  exact hf cause (h cause hcause)

theorem mapM_of_mem {f : β → Except ε α} {bs : List β} (hf : ∀ b ∈ bs, FailsWith p (f b)) :
    FailsWith p (bs.mapM f) := by
  intro e he
  obtain ⟨b, hb, he⟩ := exists_of_mapM_eq_error he
  exact hf b hb e he

theorem mapM {f : β → Except ε α} (hf : ∀ b, FailsWith p (f b)) (bs : List β) :
    FailsWith p (bs.mapM f) := mapM_of_mem fun b _ => hf b

/-- A fold of steps that keep an invariant. -/
theorem foldlM_of_invariant {f : α → β → Except ε α} {q : α → Prop} {bs : List β}
    (hf : ∀ a, q a → ∀ b ∈ bs, FailsWith p (f a b)) (hq : ∀ {a b c}, q a → f a b = .ok c → q c)
    {a : α} (ha : q a) : FailsWith p (bs.foldlM f a) := by
  intro e he
  obtain ⟨front, b, back, c, rfl, hc, he⟩ := exists_of_foldlM_eq_error he
  exact hf c (foldlM_induction hq ha hc) b (List.mem_append_right _ List.mem_cons_self) e he

theorem foldlM {f : α → β → Except ε α} (hf : ∀ a b, FailsWith p (f a b)) (a : α)
    (bs : List β) : FailsWith p (bs.foldlM f a) :=
  foldlM_of_invariant (fun a _ b _ => hf a b) (fun _ _ => trivial) trivial

end FailsWith

end

section

variable {α' β' : Type} {r : α → α' → Prop} {s : β → β' → Prop}

/-- Two computations whose answers are related if both have one. -/
def Related (r : α → α' → Prop) (x : Except ε α) (x' : Except ε α') : Prop :=
  ∀ a a', x = .ok a → x' = .ok a' → r a a'

namespace Related

variable {x y : Except ε α} {x' : Except ε α'}

theorem ok {a : α} {a' : α'} (h : r a a') : Related r (.ok a : Except ε α) (.ok a') := by
  rintro _ _ ⟨⟩ ⟨⟩
  exact h

theorem errorLeft {e : ε} : Related r (.error e) x' := by
  rintro _ _ ⟨⟩

theorem errorRight {e : ε} : Related r x (.error e : Except ε α') := by
  rintro _ _ - ⟨⟩

theorem any (x : Except ε α) (x' : Except ε α') : Related (fun _ _ => True) x x' :=
  fun _ _ _ _ => trivial

theorem of_eq (h : y = x) : Related (· = ·) x y := by
  rintro a a' ha ha'
  exact Except.ok.inj (ha.symm.trans (h ▸ ha'))

theorem mapError {f f' : ε → ε'} (h : Related r x x') :
    Related r (x.mapError f) (x'.mapError f') := fun a a' ha ha' =>
  h a a' (mapError_eq_ok.mp ha) (mapError_eq_ok.mp ha')

theorem bind {f : α → Except ε β} {f' : α' → Except ε β'} (h : Related r x x')
    (hf : ∀ a a', r a a' → Related s (f a) (f' a')) : Related s (x >>= f) (x' >>= f') := by
  intro b b' hb hb'
  obtain ⟨a, ha, hb⟩ := bind_eq_ok.mp hb
  obtain ⟨a', ha', hb'⟩ := bind_eq_ok.mp hb'
  exact hf a a' (h a a' ha ha') b b' hb hb'

/-- What comes after equal computations may rely on their common answer. -/
theorem bind_of_eq {f : α → Except ε β} {f' : α → Except ε β'} (h : y = x)
    (hf : ∀ a, Related s (f a) (f' a)) : Related s (x >>= f) (y >>= f') :=
  (of_eq h).bind fun a _ ha => ha ▸ hf a

end Related

end

end HybridGraph.Outcome
