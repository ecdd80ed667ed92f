import Mathlib

/-! Commands over a state that can stop early. A command reads an environment, changes the state and
either delivers a value or stops with a reason; what it did to the state before it stopped stays done,
as in a C function that returns an error code half-way. -/

/-- A sequence of pure computations that delivers a value delivered one at its first part. -/
theorem exceptBind_eq_ok {ε α β : Type} {value : Except ε α} {next : α → Except ε β} {b : β}
    (h : value >>= next = .ok b) : ∃ a, value = .ok a ∧ next a = .ok b := by
  cases value with
  | error reason => cases h
  | ok a => exact ⟨a, rfl, h⟩

/-- A command with environment `ρ`, state `σ` and reasons to stop `ε`. -/
def Command (ρ σ ε α : Type) : Type := ρ → σ → Except ε α × σ

namespace Command

variable {ρ σ ε α β : Type}

instance : Monad (Command ρ σ ε) where
  pure a := fun _ state => (.ok a, state)
  bind command next := fun env state =>
    match command env state with
    | (.ok a, state') => next a env state'
    | (.error stop, state') => (.error stop, state')

def stop (reason : ε) : Command ρ σ ε α := fun _ state => (.error reason, state)

/-- Deliver the value of a pure computation, or stop where it fails. -/
def lift (value : Except ε α) : Command ρ σ ε α := fun _ state => (value, state)

def ask : Command ρ σ ε ρ := fun env state => (.ok env, state)

def get : Command ρ σ ε σ := fun _ state => (.ok state, state)

/-- Give every stop of a command another reason. -/
def mapStop (f : ε → ε) (command : Command ρ σ ε α) : Command ρ σ ε α := fun env state =>
  match command env state with
  | (.ok a, state') => (.ok a, state')
  | (.error reason, state') => (.error (f reason), state')

/-- How a command ends, as a value: it never stops. -/
def attempt (command : Command ρ σ ε α) : Command ρ σ ε (Except ε α) := fun env state =>
  (.ok (command env state).1, (command env state).2)

section Run

variable (env : ρ) (state : σ)

@[simp] theorem pure_run (a : α) :
    (pure a : Command ρ σ ε α) env state = (.ok a, state) := rfl

@[simp] theorem stop_run (reason : ε) :
    (stop reason : Command ρ σ ε α) env state = (.error reason, state) := rfl

@[simp] theorem lift_run (value : Except ε α) :
    (lift value : Command ρ σ ε α) env state = (value, state) := rfl

@[simp] theorem ask_run : (ask : Command ρ σ ε ρ) env state = (.ok env, state) := rfl

@[simp] theorem get_run : (get : Command ρ σ ε σ) env state = (.ok state, state) := rfl

theorem bind_run (command : Command ρ σ ε α) (next : α → Command ρ σ ε β) :
    (command >>= next) env state =
      match command env state with
      | (.ok a, state') => next a env state'
      | (.error reason, state') => (.error reason, state') := rfl

variable {env state} {command : Command ρ σ ε α} {next : α → Command ρ σ ε β} {state' : σ}

theorem bind_ok {a : α} (h : command env state = (.ok a, state')) :
    (command >>= next) env state = next a env state' := by
  rw [bind_run, h]

theorem bind_error {reason : ε} (h : command env state = (.error reason, state')) :
    (command >>= next) env state = (.error reason, state') := by
  rw [bind_run, h]

/-- A sequence that delivers a value delivered one at its first part. -/
theorem bind_eq_ok {b : β} (h : (command >>= next) env state = (.ok b, state')) :
    ∃ a middle, command env state = (.ok a, middle) ∧ next a env middle = (.ok b, state') := by
  rw [bind_run] at h
  rcases hc : command env state with ⟨_ | a, middle⟩
  · simp [hc] at h
  · exact ⟨a, middle, rfl, by simpa [hc] using h⟩

end Run

theorem bind_assoc {γ : Type} (command : Command ρ σ ε α) (next : α → Command ρ σ ε β)
    (last : β → Command ρ σ ε γ) :
    (command >>= next) >>= last = command >>= fun a => next a >>= last := by
  funext env state
  rw [bind_run, bind_run, bind_run]
  rcases command env state with ⟨_ | a, state'⟩ <;> rfl

/-- Every run changes the state only within `Rel`. -/
def Within (Rel : σ → σ → Prop) (command : Command ρ σ ε α) : Prop :=
  ∀ env state, Rel state (command env state).2

namespace Within

variable {Rel : σ → σ → Prop}

theorem pure [Std.Refl Rel] (a : α) : Within Rel (pure a : Command ρ σ ε α) :=
  fun _ state => refl_of Rel state

theorem stop [Std.Refl Rel] (reason : ε) : Within Rel (stop reason : Command ρ σ ε α) :=
  fun _ state => refl_of Rel state

theorem lift [Std.Refl Rel] (value : Except ε α) : Within Rel (lift value : Command ρ σ ε α) :=
  fun _ state => refl_of Rel state

theorem attempt {command : Command ρ σ ε α} (h : Within Rel command) : Within Rel (attempt command) := h

theorem bind [IsTrans σ Rel] {command : Command ρ σ ε α} {next : α → Command ρ σ ε β}
    (hcommand : Within Rel command) (hnext : ∀ a, Within Rel (next a)) :
    Within Rel (command >>= next) := by
  intro env state
  have hfirst := hcommand env state
  rw [bind_run]
  rcases hrun : command env state with ⟨_ | a, middle⟩
  · simpa [hrun] using hfirst
  · rw [hrun] at hfirst
    exact trans_of Rel hfirst (hnext a env middle)

end Within

end Command
