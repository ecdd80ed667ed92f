import Mathlib

/-! Traces of events and the states they lead through. A property that holds in every state on the way
survives any cut of the trace. -/

namespace Replay

variable {σ ε : Type} (apply : σ → ε → σ)

/-- The state after a trace of events. -/
def replay (state : σ) (trace : List ε) : σ := trace.foldl apply state

@[simp] theorem replay_nil (state : σ) : replay apply state [] = state := rfl

@[simp] theorem replay_cons (state : σ) (event : ε) (trace : List ε) :
    replay apply state (event :: trace) = replay apply (apply state event) trace := rfl

theorem replay_append (state : σ) (first second : List ε) :
    replay apply state (first ++ second) = replay apply (replay apply state first) second :=
  List.foldl_append

/-- The property holds in the start state and after every event of the trace. -/
def Throughout (P : σ → Prop) (state : σ) (trace : List ε) : Prop :=
  ∀ part, part <+: trace → P (replay apply state part)

variable {apply} {P : σ → Prop} {state : σ} {trace : List ε}

theorem Throughout.start (h : Throughout apply P state trace) : P state := h [] List.nil_prefix

theorem Throughout.final (h : Throughout apply P state trace) : P (replay apply state trace) :=
  h trace List.prefix_rfl

theorem throughout_nil : Throughout apply P state [] ↔ P state := by
  simp [Throughout, List.prefix_nil]

theorem throughout_cons {event : ε} :
    Throughout apply P state (event :: trace) ↔ P state ∧ Throughout apply P (apply state event) trace := by
  constructor
  · refine fun h => ⟨h.start, fun part hpart => ?_⟩
    exact h (event :: part) (List.cons_prefix_cons.mpr ⟨rfl, hpart⟩)
  · rintro ⟨hstart, hrest⟩ part hpart
    rcases part with _ | ⟨head, tail⟩
    · exact hstart
    · obtain ⟨rfl, htail⟩ := List.cons_prefix_cons.mp hpart
      exact hrest tail htail

theorem throughout_append {first second : List ε} :
    Throughout apply P state (first ++ second) ↔
      Throughout apply P state first ∧ Throughout apply P (replay apply state first) second := by
  induction first generalizing state with
  | nil =>
      rw [List.nil_append, replay_nil, throughout_nil]
      exact ⟨fun h => ⟨h.start, h⟩, fun h => h.2⟩
  | cons event first ih =>
      rw [List.cons_append, throughout_cons, throughout_cons, ih, replay_cons, and_assoc]

/-- Events that each keep an invariant keep it throughout. -/
theorem throughout_of_step (hstart : P state)
    (hstep : ∀ event ∈ trace, ∀ state, P state → P (apply state event)) :
    Throughout apply P state trace := by
  induction trace generalizing state with
  | nil => exact throughout_nil.mpr hstart
  | cons event trace ih =>
      rw [throughout_cons]
      exact ⟨hstart, ih (hstep event List.mem_cons_self state hstart)
        fun event hevent => hstep event (List.mem_cons_of_mem _ hevent)⟩

end Replay
