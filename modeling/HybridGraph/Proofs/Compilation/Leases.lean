import HybridGraph.Compilation.Compile
/-!
# Devices under leases

`LeaseBook` is the selected device beside the leases that are out, each with the device that it was
taken on; `LeaseBook.run` lets anything happen to it: selections, acquisitions and returns, in any
order.  The counter always counts the leases, all leases are on the selected device, and the
selection stays as it is while a lease is out:

    (book.run events).Sound                                                    (Sound.run)
    (∀ early, early <+: events → early ≠ events → (book.run early).leases ≠ []) →
      (book.run events).state.selected = book.state.selected            (selected_run_of_held)

So a request fails exactly if it asks for another device while a lease is out
(`LeaseBook.run_sound`), and a compilation gives its lease back, whether it succeeds or not.
-/

namespace HybridGraph

/-! ## Histories -/

/-- The selected device and the device of each lease that is out. -/
structure LeaseBook where
  state : DeviceState
  leases : List Device := []

/-- Something that happens to the selected device. -/
inductive LeaseEvent where
  | select (device : Device)
  | acquire (device : Device)
  /-- The lease at a place is given back; without such a lease nothing happens. -/
  | release (place : Nat)

namespace LeaseBook

/-- No lease is out. -/
def opened (device : Device) : LeaseBook := ⟨{ selected := device }, []⟩

/-- The book after an event, and the error that the event answers.  A request that fails leaves the
book as it is. -/
def step (book : LeaseBook) : LeaseEvent → LeaseBook × Option DeviceError
  | .select device =>
    match book.state.select device with
    | .ok state => ({ book with state }, none)
    | .error e => (book, some e)
  | .acquire device =>
    match book.state.acquire device with
    | .ok state => (⟨state, book.leases ++ [device]⟩, none)
    | .error e => (book, some e)
  | .release place =>
    if place < book.leases.length then (⟨book.state.release, book.leases.eraseIdx place⟩, none)
    else (book, none)

/-- The book after events. -/
def run (book : LeaseBook) (events : List LeaseEvent) : LeaseBook :=
  events.foldl (fun book event => (book.step event).1) book

/-- The counter counts the leases, and each of them is on the selected device. -/
structure Sound (book : LeaseBook) : Prop where
  counted : book.state.leases = book.leases.length
  pinned : ∀ device ∈ book.leases, device = book.state.selected

/-- Another device than the selected one is asked for while a lease is out. -/
def Refuses (book : LeaseBook) (device : Device) : Prop :=
  device ≠ book.state.selected ∧ book.leases ≠ []

/-- The error of a refused request. -/
def refusal (book : LeaseBook) (device : Device) : DeviceError :=
  ⟨device, book.state.selected, book.leases.length⟩

variable {book : LeaseBook} {device : Device} {state : DeviceState} {error : DeviceError}

@[simp] theorem run_nil : book.run [] = book := rfl

@[simp] theorem run_cons (event : LeaseEvent) (events : List LeaseEvent) :
    book.run (event :: events) = (book.step event).1.run events := rfl

/-! ## One event -/

theorem Sound.refuses_iff (h : book.Sound) :
    book.Refuses device ↔ book.state.selected ≠ device ∧ 0 < book.state.leases := by
  rw [Refuses, h.counted, List.length_pos_iff, ne_comm]

theorem Sound.select_eq_error (h : book.Sound) : book.state.select device = .error error ↔
    book.Refuses device ∧ error = book.refusal device := by
  unfold DeviceState.select refusal
  rw [h.refuses_iff, ← h.counted]
  split
  · next hrefuses => simp [hrefuses, eq_comm]
  · next hallowed => simp [hallowed]

theorem Sound.select_eq_ok (h : book.Sound) : book.state.select device = .ok state ↔
    ¬ book.Refuses device ∧ state = { book.state with selected := device } := by
  unfold DeviceState.select
  rw [h.refuses_iff]
  split
  · next hrefuses => simp [hrefuses]
  · next hallowed =>
    rw [and_iff_right hallowed, Except.ok.injEq]
    exact eq_comm

/-- Acquisition refuses what selection refuses. -/
theorem Sound.acquire_eq_error (h : book.Sound) : book.state.acquire device = .error error ↔
    book.Refuses device ∧ error = book.refusal device := by
  rw [← h.select_eq_error, DeviceState.acquire]
  cases book.state.select device <;> simp [Except.map]

theorem Sound.acquire_eq_ok (h : book.Sound) : book.state.acquire device = .ok state ↔
    ¬ book.Refuses device ∧ state = ⟨device, book.state.leases + 1⟩ := by
  rw [DeviceState.acquire]
  cases hselect : book.state.select device with
  | error e =>
    have hrefuses := (h.select_eq_error.mp hselect).1
    simp [Except.map, hrefuses]
  | ok selected =>
    obtain ⟨hallowed, rfl⟩ := h.select_eq_ok.mp hselect
    simp [Except.map, hallowed, eq_comm]

/-- What an event does to a sound book: a refused request nothing, any other request selects its
device and may take a lease on it, and a return drops one lease. -/
theorem Sound.step_cases (h : book.Sound) (event : LeaseEvent) :
    (∃ device, (event = .select device ∨ event = .acquire device) ∧ book.Refuses device ∧
      book.step event = (book, some (book.refusal device))) ∨
    (∃ device, event = .select device ∧ ¬ book.Refuses device ∧
      book.step event = (⟨{ book.state with selected := device }, book.leases⟩, none)) ∨
    (∃ device, event = .acquire device ∧ ¬ book.Refuses device ∧
      book.step event =
        (⟨⟨device, book.state.leases + 1⟩, book.leases ++ [device]⟩, none)) ∨
    (∃ place, event = .release place ∧ book.step event = (book, none)) ∨
    (∃ place, event = .release place ∧ place < book.leases.length ∧
      book.step event = (⟨book.state.release, book.leases.eraseIdx place⟩, none)) := by
  cases event with
  | select device =>
    cases hselect : book.state.select device with
    | error e =>
      obtain ⟨hrefuses, rfl⟩ := h.select_eq_error.mp hselect
      exact .inl ⟨device, .inl rfl, hrefuses, by simp [step, hselect]⟩
    | ok state =>
      obtain ⟨hallowed, rfl⟩ := h.select_eq_ok.mp hselect
      exact .inr (.inl ⟨device, rfl, hallowed, by simp [step, hselect]⟩)
  | acquire device =>
    cases hacquire : book.state.acquire device with
    | error e =>
      obtain ⟨hrefuses, rfl⟩ := h.acquire_eq_error.mp hacquire
      exact .inl ⟨device, .inr rfl, hrefuses, by simp [step, hacquire]⟩
    | ok state =>
      obtain ⟨hallowed, rfl⟩ := h.acquire_eq_ok.mp hacquire
      exact .inr (.inr (.inl ⟨device, rfl, hallowed, by simp [step, hacquire]⟩))
  | release place =>
    by_cases hplace : place < book.leases.length
    · exact .inr (.inr (.inr (.inr ⟨place, rfl, hplace, if_pos hplace⟩)))
    · exact .inr (.inr (.inr (.inl ⟨place, rfl, if_neg hplace⟩)))

/-- Where a request is not refused, all leases are on its device. -/
theorem Sound.pinned_of_allowed (h : book.Sound) (hallowed : ¬ book.Refuses device) :
    ∀ d ∈ book.leases, d = device := by
  intro d hd
  refine Decidable.byContradiction fun hne => hallowed ⟨fun heq => hne ?_, List.ne_nil_of_mem hd⟩
  rw [h.pinned d hd, heq]

protected theorem Sound.step (h : book.Sound) (event : LeaseEvent) : (book.step event).1.Sound := by
  rcases h.step_cases event with ⟨device, -, -, heq⟩ | ⟨device, -, hallowed, heq⟩ |
    ⟨device, -, hallowed, heq⟩ | ⟨place, -, heq⟩ | ⟨place, -, hplace, heq⟩ <;> rw [heq]
  · exact h
  · exact ⟨h.counted, fun d hd => h.pinned_of_allowed hallowed d hd⟩
  · refine ⟨by simp [h.counted], fun d hd => ?_⟩
    rcases List.mem_append.mp hd with hd | hd
    · exact h.pinned_of_allowed hallowed d hd
    · exact List.mem_singleton.mp hd
  · exact h
  · refine ⟨?_, fun d hd => h.pinned d (List.mem_of_mem_eraseIdx hd)⟩
    simp [DeviceState.release, h.counted, List.length_eraseIdx_of_lt hplace]

/-- An event changes the selection only where no lease is out. -/
theorem Sound.selected_step (h : book.Sound) (hheld : book.leases ≠ []) (event : LeaseEvent) :
    (book.step event).1.state.selected = book.state.selected := by
  have hsame : ∀ device, ¬ book.Refuses device → device = book.state.selected :=
    fun device hallowed => Decidable.byContradiction fun hne => hallowed ⟨hne, hheld⟩
  rcases h.step_cases event with ⟨device, -, -, heq⟩ | ⟨device, -, hallowed, heq⟩ |
    ⟨device, -, hallowed, heq⟩ | ⟨place, -, heq⟩ | ⟨place, -, -, heq⟩ <;> rw [heq]
  · exact hsame device hallowed
  · exact hsame device hallowed
  · rfl

/-- An event that answers an error changes nothing. -/
theorem Sound.step_of_error (h : book.Sound) {event : LeaseEvent}
    (herror : (book.step event).2 = some error) : (book.step event).1 = book := by
  rcases h.step_cases event with ⟨device, -, -, heq⟩ | ⟨device, -, -, heq⟩ | ⟨device, -, -, heq⟩ |
    ⟨place, -, heq⟩ | ⟨place, -, -, heq⟩ <;> rw [heq] at herror ⊢ <;> cases herror

/-! ## Many events -/

theorem sound_opened (device : Device) : (opened device).Sound := ⟨rfl, fun _ hd => nomatch hd⟩

protected theorem Sound.run (h : book.Sound) (events : List LeaseEvent) :
    (book.run events).Sound := by
  induction events generalizing book with
  | nil => exact h
  | cons event events ih => exact ih (h.step event)

/-- The selection stays as it is as long as a lease is out before each event. -/
theorem Sound.selected_run_of_held (h : book.Sound) {events : List LeaseEvent}
    (hheld : ∀ early, early <+: events → early ≠ events → (book.run early).leases ≠ []) :
    (book.run events).state.selected = book.state.selected := by
  induction events generalizing book with
  | nil => rfl
  | cons event events ih =>
    have hfirst : book.leases ≠ [] := hheld [] List.nil_prefix (by simp)
    rw [run_cons, ih (h.step event) fun early hearly hne => ?_, h.selected_step hfirst event]
    exact hheld (event :: early) (List.cons_prefix_cons.mpr ⟨rfl, hearly⟩) (by simpa using hne)

end LeaseBook

/-! ## Compilations -/

/-- A compilation takes a lease and gives it back, whether it succeeds or not. -/
theorem Compiler.state_holding {α : Type} (book : LeaseBook) (device : Device)
    (run : Unit → Except CompileError α) : (Compiler.holding book.state device run).2 =
      (book.run [.acquire device, .release book.leases.length]).state := by
  unfold Compiler.holding
  cases hacquire : book.state.acquire device with
  | error e => simp [LeaseBook.step, hacquire]
  | ok state => simp [LeaseBook.step, hacquire]

/-! ## Top theorem -/

/-- After any history that starts without leases, the counter counts the leases and all of them are
on the selected device, which does not change as long as one of them is out; a selection or an
acquisition fails exactly if it asks for another device while a lease is out, with an error that
names both devices and the count; and what fails changes nothing. -/
theorem LeaseBook.run_sound (device : Device) (history : List LeaseEvent) :
    let book := (opened device).run history
    (book.state.leases = book.leases.length ∧ ∀ d ∈ book.leases, d = book.state.selected) ∧
      (∀ events, (∀ early, early <+: events → early ≠ events → (book.run early).leases ≠ []) →
        (book.run events).state.selected = book.state.selected) ∧
      (∀ requested error,
        (book.state.select requested = .error error ↔
          (requested ≠ book.state.selected ∧ book.leases ≠ []) ∧
            error = ⟨requested, book.state.selected, book.leases.length⟩) ∧
        (book.state.acquire requested = .error error ↔
          (requested ≠ book.state.selected ∧ book.leases ≠ []) ∧
            error = ⟨requested, book.state.selected, book.leases.length⟩)) ∧
      ∀ event error, (book.step event).2 = some error → (book.step event).1 = book := by
  intro book
  have h : book.Sound := (sound_opened device).run history
  exact ⟨⟨h.counted, h.pinned⟩, fun events => h.selected_run_of_held,
    fun requested error => ⟨h.select_eq_error, h.acquire_eq_error⟩,
    fun event error => h.step_of_error⟩

example : ((LeaseBook.opened .standard).run
    [.acquire { gpu := 1 }, .acquire { gpu := 1 }, .release 0, .select { gpu := 2 }]).state =
      ⟨{ gpu := 1 }, 1⟩ := by decide

end HybridGraph
