/-
Transition systems, and the one induction every safety result needs.

`invariant` turns "holds initially, kept by every step" into "holds in every
reachable state"; a step may assume that it starts in a REACHABLE state.
`steps_of_simulates` carries runs over to a second system. `guarded` is the
system of a step function, restricted to the steps a test allows; `play` makes
such a run on a list of operations.
-/
import Mathlib.Logic.Relation
import Yeto.Lib.Trace

namespace Lib

/-- A transition system over the states `σ`. -/
structure System (σ : Type*) where
  init : σ → Prop
  step : σ → σ → Prop

namespace System

variable {σ : Type*} {S : System σ}

/-- The states of the runs of a system. -/
inductive Reachable (S : System σ) : σ → Prop
  | init {s : σ} : S.init s → Reachable S s
  | step {s s' : σ} : Reachable S s → S.step s s' → Reachable S s'

abbrev Steps (S : System σ) : σ → σ → Prop := Relation.ReflTransGen S.step

/-- What holds initially and is kept by every step from a reachable state
holds in every reachable state. -/
theorem invariant {P : σ → Prop} (h0 : ∀ s, S.init s → P s)
    (hstep : ∀ s s', S.Reachable s → P s → S.step s s' → P s') {s : σ}
    (h : S.Reachable s) : P s := by
  induction h with
  | init hi => exact h0 _ hi
  | step hr hs ih => exact hstep _ _ hr ih hs

theorem Reachable.steps {s s' : σ} (h : S.Reachable s) (hs : S.Steps s s') : S.Reachable s' := by
  induction hs with
  | refl => exact h
  | tail _ hstep ih => exact ih.step hstep

section Simulation

variable {τ : Type*} {T : System τ} {f : σ → τ} {s s' : σ}

theorem steps_of_simulates (hstep : ∀ s s', S.Reachable s → S.step s s' → T.Steps (f s) (f s'))
    (h : S.Reachable s) (hs : S.Steps s s') : T.Steps (f s) (f s') := by
  induction hs with
  | refl => exact .refl
  | tail hbefore hlast ih => exact ih.trans (hstep _ _ (h.steps hbefore) hlast)

theorem reachable_of_simulates (h0 : ∀ s, S.init s → T.init (f s))
    (hstep : ∀ s s', S.Reachable s → S.step s s' → T.Steps (f s) (f s'))
    (h : S.Reachable s) : T.Reachable (f s) := by
  refine invariant (P := fun s => T.Reachable (f s)) ?_ ?_ h
  · exact fun s hs => .init (h0 s hs)
  · exact fun s s' hr ih hs => ih.steps (hstep s s' hr hs)

end Simulation

section Guarded

variable {ω : Type*} {start s s' : σ} {allowed : σ → ω → Bool}
  {exec : σ → ω → Option σ} {ops : List ω}

/-- The `allowed` steps of a step function, from one state. -/
def guarded (start : σ) (allowed : σ → ω → Bool) (exec : σ → ω → Option σ) : System σ where
  init s := s = start
  step s s' := ∃ op, allowed s op = true ∧ exec s op = some s'

theorem guarded_steps (op : ω) (hallowed : allowed s op = true)
    (hexec : exec s op = some s') : (guarded start allowed exec).Steps s s' :=
  .single ⟨op, hallowed, hexec⟩

theorem guarded_invariant {P : σ → Prop} (h0 : P start)
    (hstep : ∀ s s' op, P s → allowed s op = true → exec s op = some s' → P s')
    (h : (guarded start allowed exec).Reachable s) : P s := by
  refine invariant ?_ ?_ h
  · rintro _ rfl
    exact h0
  · rintro s s' - hs ⟨op, hallowed, hexec⟩
    exact hstep s s' op hs hallowed hexec

/-- The state after a list of operations, if all are allowed and possible. -/
def play (allowed : σ → ω → Bool) (exec : σ → ω → Option σ) : σ → List ω → Option σ
  | s, [] => some s
  | s, op :: ops =>
    if allowed s op then
      (exec s op).bind fun s' => play allowed exec s' ops
    else none

theorem Reachable.play (h : (guarded start allowed exec).Reachable s)
    (hplay : play allowed exec s ops = some s') : (guarded start allowed exec).Reachable s' := by
  induction ops generalizing s with
  | nil =>
    cases hplay
    exact h
  | cons op ops ih =>
    obtain ⟨hallowed, hplay⟩ := Option.ite_none_right_eq_some.1 hplay
    obtain ⟨s₁, hexec, hrest⟩ := Option.bind_eq_some_iff.1 hplay
    exact ih (h.step ⟨op, hallowed, hexec⟩) hrest

theorem reachable_play (hplay : play allowed exec start ops = some s) :
    (guarded start allowed exec).Reachable s := Reachable.play (.init rfl) hplay

/-- A run to a state with a property, given by its operations. -/
theorem exists_reachable {P : σ → Prop} [DecidablePred P] (ops : List ω)
    (h : (play allowed exec start ops).any (fun s => decide (P s)) = true) :
    ∃ s, (guarded start allowed exec).Reachable s ∧ P s := by
  obtain ⟨s, hs, hP⟩ := (Option.any_eq_true _ _).1 h
  exact ⟨s, reachable_play hs, of_decide_eq_true hP⟩

end Guarded

end System

end Lib
