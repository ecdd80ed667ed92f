import Fs5600.Base.Command
import Fs5600.Base.Replay

/-! Commands that keep a record of what they do. The state shows a view, and a record of the events that
led to it. A rule about a command says which events it adds to the record and how it ends, from every
state with a given view; what the state holds besides (counters, caches) stays out of the statements.

`Follows` is the rule for commands that may break off early: such a command does a plan to its end, or
stops in the middle of it. -/

namespace Command

open Replay

variable {ρ σ ε θ ω α β : Type}

/-- The view and the record of a state, and the effect of an event on a view. -/
structure Recorder (σ θ ω : Type) where
  view : σ → θ
  record : σ → List ω
  apply : θ → ω → θ

namespace Recorder

variable (R : Recorder σ θ ω)

/-- From one state to another the events were added to the record and had their effect on the view. -/
structure Emits (start : σ) (events : List ω) (final : σ) : Prop where
  view : R.view final = replay R.apply (R.view start) events
  record : R.record final = R.record start ++ events

variable {R} {m m' m'' : σ} {events events' : List ω}

theorem Emits.refl (m : σ) : R.Emits m [] m := ⟨rfl, (List.append_nil _).symm⟩

theorem Emits.append (h : R.Emits m events m') (h' : R.Emits m' events' m'') :
    R.Emits m (events ++ events') m'' where
  view := by rw [h'.view, h.view, replay_append]
  record := by rw [h'.record, h.record, List.append_assoc]

end Recorder

variable (R : Recorder σ θ ω)

/-- From every state with the view `start`, the command adds events to the record that, with its result,
satisfy the postcondition. -/
def Ensures (env : ρ) (start : θ) (command : Command ρ σ ε α) (post : Except ε α → List ω → Prop) : Prop :=
  ∀ m, R.view m = start → ∃ events, R.Emits m events (command env m).2 ∧ post (command env m).1 events

/-- The command does the plan and ends with the value; or it ends early, for one of the reasons `early`,
with the first part of the plan done. -/
def Follows (early : ε → Prop) (env : ρ) (start : θ) (command : Command ρ σ ε α) (value : Except ε α)
    (plan : List ω) : Prop :=
  Ensures R env start command fun result events =>
    (result = value ∧ events = plan) ∨ ∃ reason, early reason ∧ result = .error reason ∧ events <+: plan

variable {R} {env : ρ} {start : θ}

namespace Ensures

variable {command : Command ρ σ ε α} {post post' : Except ε α → List ω → Prop}

theorem pure {a : α} (h : post (.ok a) []) : Ensures R env start (pure a : Command ρ σ ε α) post :=
  fun m _ => ⟨[], .refl m, h⟩

theorem stop {reason : ε} (h : post (.error reason) []) :
    Ensures R env start (Command.stop reason : Command ρ σ ε α) post :=
  fun m _ => ⟨[], .refl m, h⟩

theorem lift {value : Except ε α} (h : post value []) :
    Ensures R env start (Command.lift value : Command ρ σ ε α) post :=
  fun m _ => ⟨[], .refl m, h⟩

theorem mono (h : Ensures R env start command post) (himp : ∀ result events, post result events →
    post' result events) : Ensures R env start command post' := by
  intro m hm
  obtain ⟨events, hemits, hpost⟩ := h m hm
  exact ⟨events, hemits, himp _ _ hpost⟩

/-- The rule for a sequence. -/
theorem bind {next : α → Command ρ σ ε β} {goal : Except ε β → List ω → Prop}
    (h : Ensures R env start command post)
    (hstop : ∀ reason events, post (.error reason) events → goal (.error reason) events)
    (hnext : ∀ a events, post (.ok a) events →
      Ensures R env (replay R.apply start events) (next a) fun result events' =>
        goal result (events ++ events')) :
    Ensures R env start (command >>= next) goal := by
  intro m hm
  obtain ⟨events, hemits, hpost⟩ := h m hm
  rw [bind_run]
  rcases hrun : command env m with ⟨reason | a, m'⟩
  · rw [hrun] at hemits hpost
    exact ⟨events, hemits, hstop reason events hpost⟩
  · rw [hrun] at hemits hpost
    obtain ⟨events', hemits', hgoal⟩ := hnext a events hpost m' (by rw [hemits.view, hm])
    exact ⟨events ++ events', hemits.append hemits', hgoal⟩

end Ensures

namespace Follows

variable {early : ε → Prop} {command : Command ρ σ ε α} {value : Except ε α} {plan : List ω}

theorem pure (a : α) : Follows R early env start (pure a : Command ρ σ ε α) (.ok a) [] :=
  Ensures.pure (Or.inl ⟨rfl, rfl⟩)

theorem stop (reason : ε) : Follows R early env start (Command.stop reason : Command ρ σ ε α) (.error reason) [] :=
  Ensures.stop (Or.inl ⟨rfl, rfl⟩)

theorem lift (value : Except ε α) :
    Follows R early env start (Command.lift value : Command ρ σ ε α) value [] :=
  Ensures.lift (Or.inl ⟨rfl, rfl⟩)

theorem ask : Follows R early env start (Command.ask : Command ρ σ ε ρ) (.ok env) [] :=
  fun m _ => ⟨[], .refl m, Or.inl ⟨rfl, rfl⟩⟩

/-- A sequence whose first part delivers a value does both plans. -/
theorem bind_ok {next : α → Command ρ σ ε β} {a : α} {value' : Except ε β} {plan' : List ω}
    (h : Follows R early env start command (.ok a) plan)
    (hnext : Follows R early env (replay R.apply start plan) (next a) value' plan') :
    Follows R early env start (command >>= next) value' (plan ++ plan') := by
  refine Ensures.bind h ?_ ?_
  · rintro reason events (⟨hresult, -⟩ | ⟨reason', hearly, hresult, hpre⟩)
    · cases hresult
    · obtain rfl := Except.error.inj hresult
      exact Or.inr ⟨reason, hearly, rfl, hpre.trans (List.prefix_append _ _)⟩
  · rintro a' events (⟨hresult, rfl⟩ | ⟨reason, -, hresult, -⟩)
    · obtain rfl := Except.ok.inj hresult
      apply hnext.mono
      rintro result events' (⟨rfl, rfl⟩ | ⟨reason, hearly, rfl, hpre⟩)
      · exact Or.inl ⟨rfl, rfl⟩
      · exact Or.inr ⟨reason, hearly, rfl, (List.prefix_append_right_inj _).mpr hpre⟩
    · cases hresult

/-- A sequence whose first part stops does the first plan only. -/
theorem bind_error {next : α → Command ρ σ ε β} {reason : ε}
    (h : Follows R early env start command (.error reason) plan) :
    Follows R early env start (command >>= next) (.error reason) plan := by
  refine Ensures.bind h ?_ ?_
  · rintro reason' events (⟨hresult, rfl⟩ | ⟨reason'', hearly, hresult, hpre⟩)
    · obtain rfl := Except.error.inj hresult
      exact Or.inl ⟨rfl, rfl⟩
    · obtain rfl := Except.error.inj hresult
      exact Or.inr ⟨reason', hearly, rfl, hpre⟩
  · rintro a events (⟨hresult, -⟩ | ⟨reason', -, hresult, -⟩) <;> cases hresult

/-- The rule for a first part that changes nothing. -/
theorem bind {next : α → Command ρ σ ε β} {value' : α → Except ε β} {plan' : List ω}
    (h : Follows R early env start command value [])
    (hnext : ∀ a, value = .ok a → Follows R early env start (next a) (value' a) [])
    (hplan : plan' = []) :
    Follows R early env start (command >>= next) (value >>= value') plan' := by
  subst hplan
  cases value with
  | error reason => exact h.bind_error
  | ok a => exact h.bind_ok (hnext a rfl)

/-- A command with no early end does its plan. -/
theorem complete (h : Follows R early env start command value plan) (hearly : ∀ reason, ¬early reason)
    {m : σ} (hm : R.view m = start) : R.Emits m plan (command env m).2 ∧ (command env m).1 = value := by
  obtain ⟨events, hemits, ⟨hresult, rfl⟩ | ⟨reason, hreason, -⟩⟩ := h m hm
  · exact ⟨hemits, hresult⟩
  · exact absurd hreason (hearly reason)

/-- A command that delivers a value did its plan. -/
theorem of_ok (h : Follows R early env start command value plan) {m m' : σ} (hm : R.view m = start) {a : α}
    (hrun : command env m = (.ok a, m')) : value = .ok a ∧ R.Emits m plan m' := by
  obtain ⟨events, hemits, ⟨hresult, rfl⟩ | ⟨reason, -, hresult, -⟩⟩ := h m hm
  · rw [hrun] at hemits hresult
    exact ⟨hresult.symm, hemits⟩
  · rw [hrun] at hresult
    cases hresult

end Follows

end Command
