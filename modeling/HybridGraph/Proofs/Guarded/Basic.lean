import HybridGraph.Proofs.Outcome
/-!
# Guarded computations

Reading past the end of a list, dividing by zero and subtracting below zero all have an answer here,
and where none was meant that answer is wrong.  A guarded computation checks every index, slice,
divisor and difference that it forms.  If one is out of range it stops with a `Trap`, which is
neither an answer nor an error and is never caught.

`Ends p q g r` says that this does not happen: the guarded computation `g` ends as the unguarded one
`r` does, with an error that satisfies `p` or an answer that satisfies `q`.  There is one rule for
each way in which computations are put together, so a computation is known to end from its parts:

    Ends p q g r → (∀ a, r = .ok a → q a → Ends p q' (f a) (k a)) →
      Ends p q' (g >>= f) (r >>= k)                                                   (Ends.bind)
-/

namespace HybridGraph

/-- What stops a computation for good. -/
inductive Trap where
  | index
  | slice
  | divisor
  | difference
  | unreachable

/-- A computation that answers or fails unless it is trapped on the way. -/
abbrev Guarded (ε : Type) : Type → Type := ExceptT ε (Except Trap)

namespace Guarded

variable {ε ε' α β : Type}

/-- Stops for good. -/
def trap (t : Trap) : Guarded ε α := ExceptT.mk (.error t)

/-- A computation that forms nothing that could be out of range. -/
def plain (r : Except ε α) : Guarded ε α := ExceptT.mk (.ok r)

/-- Blames something else for an error; traps stay. -/
def mapError (f : ε → ε') (g : Guarded ε α) : Guarded ε' α := ExceptT.adapt f g

/-! ## Checked operations -/

/-- The entry of a list. -/
def entry (values : List α) (index : ℕ) : Guarded ε α :=
  match values[index]? with
  | some value => pure value
  | none => trap .index

/-- The element of an array. -/
def read (values : Array α) (index : ℕ) : Guarded ε α :=
  match values[index]? with
  | some value => pure value
  | none => trap .index

/-- Checks an index. -/
def within (index size : ℕ) : Guarded ε Unit := if index < size then pure () else trap .index

/-- Checks the ends of a slice. -/
def span (first last size : ℕ) : Guarded ε Unit :=
  if first ≤ last ∧ last ≤ size then pure () else trap .slice

/-- Writes an element. -/
def write (values : Array α) (index : ℕ) (value : α) : Guarded ε (Array α) := do
  within index values.size
  return values.setIfInBounds index value

/-- Replaces an entry. -/
def replace (values : List α) (index : ℕ) (value : α) : Guarded ε (List α) := do
  within index values.length
  return values.set index value

/-- The entries from `first` up to, not including, `last`. -/
def segment (values : List α) (first last : ℕ) : Guarded ε (List α) := do
  span first last values.length
  return (values.take last).drop first

/-- The entries before `last`. -/
def front (values : List α) (last : ℕ) : Guarded ε (List α) := do
  span 0 last values.length
  return values.take last

/-- The entries from `first` on. -/
def back (values : List α) (first : ℕ) : Guarded ε (List α) := do
  span first values.length values.length
  return values.drop first

/-- The elements from `first` up to, not including, `last`. -/
def block (values : Array α) (first last : ℕ) : Guarded ε (Array α) := do
  span first last values.size
  return values.extract first last

/-- A quotient. -/
def quotient (n divisor : ℕ) : Guarded ε ℕ :=
  if divisor = 0 then trap .divisor else pure (n / divisor)

/-- A remainder. -/
def remainder (n divisor : ℕ) : Guarded ε ℕ :=
  if divisor = 0 then trap .divisor else pure (n % divisor)

/-- A difference. -/
def difference (n m : ℕ) : Guarded ε ℕ := if n < m then trap .difference else pure (n - m)

section

variable {values : List α} {elements : Array α} {index first last size n m : ℕ} {value : α}

theorem entry_of_lt (h : index < values.length) :
    (entry values index : Guarded ε α) = pure values[index] := by
  unfold entry
  rw [List.getElem?_eq_getElem h]

theorem read_of_lt (h : index < elements.size) :
    (read elements index : Guarded ε α) = pure elements[index] := by
  unfold read
  rw [Array.getElem?_eq_getElem h]

theorem within_of_lt (h : index < size) : (within index size : Guarded ε Unit) = pure () := if_pos h

theorem span_of_le (h : first ≤ last) (h' : last ≤ size) :
    (span first last size : Guarded ε Unit) = pure () := if_pos ⟨h, h'⟩

theorem write_of_lt (h : index < elements.size) :
    (write elements index value : Guarded ε (Array α)) =
      pure (elements.setIfInBounds index value) := by
  rw [write, within_of_lt h, pure_bind]

theorem replace_of_lt (h : index < values.length) :
    (replace values index value : Guarded ε (List α)) = pure (values.set index value) := by
  rw [replace, within_of_lt h, pure_bind]

theorem segment_of_le (h : first ≤ last) (h' : last ≤ values.length) :
    (segment values first last : Guarded ε (List α)) = pure ((values.take last).drop first) := by
  rw [segment, span_of_le h h', pure_bind]

theorem front_of_le (h : last ≤ values.length) :
    (front values last : Guarded ε (List α)) = pure (values.take last) := by
  rw [front, span_of_le (Nat.zero_le last) h, pure_bind]

theorem back_of_le (h : first ≤ values.length) :
    (back values first : Guarded ε (List α)) = pure (values.drop first) := by
  rw [back, span_of_le h (Nat.le_refl _), pure_bind]

theorem block_of_le (h : first ≤ last) (h' : last ≤ elements.size) :
    (block elements first last : Guarded ε (Array α)) = pure (elements.extract first last) := by
  rw [block, span_of_le h h', pure_bind]

theorem quotient_of_ne (h : m ≠ 0) : (quotient n m : Guarded ε ℕ) = pure (n / m) := if_neg h

theorem remainder_of_ne (h : m ≠ 0) : (remainder n m : Guarded ε ℕ) = pure (n % m) := if_neg h

theorem difference_of_le (h : m ≤ n) : (difference n m : Guarded ε ℕ) = pure (n - m) :=
  if_neg (Nat.not_lt.mpr h)

/-- Steps that compute nothing but values can be taken at once. -/
theorem mapM_eq_pure {f : α → Guarded ε β} {g : α → β} {xs : List α}
    (h : ∀ x ∈ xs, f x = pure (g x)) : xs.mapM f = pure (xs.map g) := by
  induction xs with
  | nil => rfl
  | cons x xs ih =>
    rw [List.forall_mem_cons] at h
    rw [List.mapM_cons, h.1, pure_bind, ih h.2, pure_bind]
    rfl

end

/-! ## Computations that end -/

/-- The guarded computation ends as the unguarded one does, with errors and answers as given. -/
structure Ends (p : ε → Prop) (q : α → Prop) (g : Guarded ε α) (r : Except ε α) : Prop where
  run : g = plain r
  fails : Outcome.FailsWith p r
  answers : ∀ a, r = .ok a → q a

namespace Ends

variable {p : ε → Prop} {p' : ε' → Prop} {q : α → Prop} {q' : β → Prop}
  {g : Guarded ε α} {r : Except ε α}

theorem pure {a : α} (h : q a) : Ends p q (Pure.pure a) (.ok a) where
  run := rfl
  fails := .ok a
  answers := by
    rintro _ ⟨⟩
    exact h

theorem error {e : ε} (h : p e) : Ends p q (plain (.error e)) (.error e) where
  run := rfl
  fails := .error h
  answers := by
    rintro _ ⟨⟩

theorem plain (hfails : Outcome.FailsWith p r) (hanswers : ∀ a, r = .ok a → q a) :
    Ends p q (plain r) r := ⟨rfl, hfails, hanswers⟩

/-- Less may be said about the answer, and what else is known of it may be used. -/
theorem imp {q' : α → Prop} (h : Ends p q g r) (himp : ∀ a, r = .ok a → q a → q' a) :
    Ends p q' g r :=
  ⟨h.run, h.fails, fun a ha => himp a ha (h.answers a ha)⟩

/-- One after the other; the second one may rely on the answer of the first. -/
theorem bind {f : α → Guarded ε β} {k : α → Except ε β} (h : Ends p q g r)
    (hf : ∀ a, r = .ok a → q a → Ends p q' (f a) (k a)) : Ends p q' (g >>= f) (r >>= k) := by
  obtain ⟨rfl, hfails, hanswers⟩ := h
  cases r with
  | error e => exact error (hfails e rfl)
  | ok a => exact hf a rfl (hanswers a rfl)

theorem map {f : α → β} (h : Ends p q g r) (hf : ∀ a, q a → q' (f a)) :
    Ends p q' (g >>= fun a => Pure.pure (f a)) (r >>= fun a => Pure.pure (f a)) :=
  h.bind fun a _ ha => pure (hf a ha)

theorem mapError {f : ε → ε'} (h : Ends p q g r) (hf : ∀ e, p e → p' (f e)) :
    Ends p' q (g.mapError f) (r.mapError f) := by
  obtain ⟨rfl, hfails, hanswers⟩ := h
  cases r with
  | error e => exact error (hf e (hfails e rfl))
  | ok a => exact pure (hanswers a rfl)

/-- A list, element by element. -/
theorem mapM {f : β → Guarded ε α} {k : β → Except ε α} {xs : List β}
    (h : ∀ x ∈ xs, Ends p (fun _ => True) (f x) (k x)) :
    Ends p (fun ys => ys.length = xs.length) (xs.mapM f) (xs.mapM k) := by
  induction xs with
  | nil => exact pure rfl
  | cons x xs ih =>
    rw [List.forall_mem_cons] at h
    rw [List.mapM_cons, List.mapM_cons]
    exact h.1.bind fun y _ _ => (ih h.2).map fun ys hys => congrArg Nat.succ hys

/-- The elements of an array, one for each number below a bound. -/
theorem mapM_range {f : ℕ → Guarded ε α} {k : ℕ → Except ε α} {n : ℕ}
    (h : ∀ i < n, Ends p (fun _ => True) (f i) (k i)) :
    Ends p (fun out => out.size = n) ((Array.range n).mapM f) ((Array.range n).mapM k) := by
  rw [Array.mapM_eq_mapM_toList, Array.mapM_eq_mapM_toList, Array.toList_range,
    map_eq_pure_bind, map_eq_pure_bind]
  refine (Ends.mapM fun i hi => h i (List.mem_range.mp hi)).map fun ys hys => ?_
  simpa using hys

/-- A fold of steps that keep an invariant. -/
theorem foldlM {f : α → β → Guarded ε α} {k : α → β → Except ε α} {xs : List β} {a : α}
    (h : ∀ a, q a → ∀ x ∈ xs, Ends p q (f a x) (k a x)) (ha : q a) :
    Ends p q (xs.foldlM f a) (xs.foldlM k a) := by
  induction xs generalizing a with
  | nil => exact pure ha
  | cons x xs ih =>
    rw [List.foldlM_cons, List.foldlM_cons]
    refine (h a ha x List.mem_cons_self).bind fun next _ hnext => ih ?_ hnext
    exact fun a ha x hx => h a ha x (List.mem_cons_of_mem _ hx)

end Ends

end Guarded

end HybridGraph
