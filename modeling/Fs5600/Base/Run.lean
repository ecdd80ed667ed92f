import Mathlib

/-! Runs of a system whose steps carry labels, with a second state that is kept along: a specification
that steps with it, or a record of what it did. -/

namespace Run

variable {σ τ ι : Type}

/-- The states that steps lead to, one after the other. -/
def Reaches (step : σ → ι → σ → Prop) : σ → σ → Prop :=
  Relation.ReflTransGen fun state state' => ∃ label, step state label state'

/-- A run written down: every label with the state that its step leads to. -/
inductive Trail (step : σ → ι → σ → Prop) : σ → List (ι × σ) → Prop
  | nil (start : σ) : Trail step start []
  | cons {start next : σ} {label : ι} {rest : List (ι × σ)} (hfirst : step start label next)
      (hrest : Trail step next rest) : Trail step start ((label, next) :: rest)

/-- Steps that carry a second state along: `along` relates it before and after a step. -/
def Along (step : σ → ι → σ → Prop) (along : ι → σ → σ → τ → τ → Prop) : σ × τ → ι → σ × τ → Prop :=
  fun start label final => step start.1 label final.1 ∧ along label start.1 final.1 start.2 final.2

/-- A step with the second state left out. -/
def forget (entry : ι × σ × τ) : ι × σ := (entry.1, entry.2.1)

variable {step : σ → ι → σ → Prop} {along : ι → σ → σ → τ → τ → Prop}

/-- What every step keeps holds in every state reached. -/
theorem Reaches.invariant {Inv : σ → Prop} {start final : σ} (hrun : Reaches step start final)
    (hstep : ∀ state label state', Inv state → step state label state' → Inv state') (hstart : Inv start) :
    Inv final := by
  induction hrun with
  | refl => exact hstart
  | tail _ hlast ih =>
      obtain ⟨label, hlast⟩ := hlast
      exact hstep _ label _ ih hlast

theorem Reaches.single {start final : σ} {label : ι} (h : step start label final) : Reaches step start final :=
  Relation.ReflTransGen.single ⟨label, h⟩

/-- A second state is carried along a run, step for step, where every step can carry it and keeps what ties the two
together. -/
theorem Trail.lift {Ties : σ → τ → Prop} {start : σ} {trail : List (ι × σ)} (hrun : Trail step start trail)
    (hstep : ∀ state label state' second, Ties state second → step state label state' →
      ∃ second', along label state state' second second' ∧ Ties state' second')
    {second : τ} (hstart : Ties start second) :
    ∃ lifted, Trail (Along step along) (start, second) lifted ∧ lifted.map forget = trail ∧
      ∀ entry ∈ lifted, Ties entry.2.1 entry.2.2 := by
  induction hrun generalizing second with
  | nil start => exact ⟨[], .nil _, rfl, by simp⟩
  | @cons start next label rest hfirst hrest ih =>
      obtain ⟨second', halong, hties⟩ := hstep start label next second hstart hfirst
      obtain ⟨lifted, hlifted, hsame, hall⟩ := ih hties
      refine ⟨(label, next, second') :: lifted, .cons ⟨hfirst, halong⟩ hlifted, ?_, ?_⟩
      · rw [List.map_cons, hsame]
        rfl
      · exact List.forall_mem_cons.mpr ⟨hties, hall⟩

end Run
