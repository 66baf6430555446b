/-
Sync/train overlap: an island hands the change of a local round to the wire
and trains the next round while that sweep is merged
(`yeto/rl/engine/full_parameter_sync.py`: `_overlap_boundary`,
`_push_whole_sweep`, `_wait_for_sweep`;
`yeto/rl/engine/full_parameter_stream.py`: `complete_local_round`,
`apply_staged_broadcast`, `finish_rebase`, `mark_round_base`,
`ready_submission_candidates`).

One role, H = 1, whole sweeps, no first-push phase and no deferred capture. A
fragment's value is an element of a commutative group. The PULL of any step
can be there at any time. A sweep is applied in any order; the broadcast of
step `t` has the value `G t`. The FINAL cut comes behind the last sweep.
-/
import Mathlib.Algebra.Group.Basic
import Yeto.Lib.System

namespace Yeto.Overlap

open Lib

structure Profile where
  fragments : Nat
  totalRounds : Nat

variable (P : Profile)

def Profile.stepOf (k : Nat) (f : Fin P.fragments) : Nat := k * P.fragments + f + 1

def Profile.expectedBase (t : Nat) : Nat := t - P.fragments

structure Counters where
  rounds : Nat := 0
  tokens : Nat := 0

variable (V : Type*)

abbrev Cut := Fin P.fragments → V

structure Candidate where
  step : Nat
  fragment : Fin P.fragments
  cSteps : Nat
  cTokens : Nat
  cut : V
  anchor : V

structure Round where
  start : Cut P V
  trained : Cut P V
  tokens : Nat

/-- In a local round, or at the boundary behind it: in `_wait_for_sweep`, or
in `_push_whole_sweep` or the wait of the last round. -/
inductive Phase
  | training
  | waiting
  | pushing
  | finished
  deriving DecidableEq

/-- `counters` are `local_rounds` and `action_tokens`, and the other counters
what these were at the submission, the round base and each anchor. `inflight`
has the steps of the pairs. `rounds` and `pushes` are the history. -/
structure Island where
  phase : Phase := .training
  rolloutId : Nat := 0
  current : Cut P V
  anchors : Cut P V
  roundBase : Cut P V
  submissionCut : Cut P V
  fragmentVersions : Fin P.fragments → Nat := fun _ => 0
  submissionFragmentVersions : Fin P.fragments → Nat := fun _ => 0
  counters : Counters := {}
  submissionCounters : Counters := {}
  baseCounters : Counters := {}
  anchorCounters : Fin P.fragments → Counters := fun _ => {}
  pendingSweep : Option (Fin P.fragments → Nat) := none
  inflight : List Nat := []
  rounds : List (Round P V) := []
  pushes : List (Candidate P V) := []

inductive Op
  | complete (trained : Cut P V) (tokens : Nat)
  | submit (k : Nat) (f : Fin P.fragments)
  | apply (k : Nat) (f : Fin P.fragments)
  | applied
  | pushed

variable {P V} [AddCommGroup V] (G : Nat → V)

def Candidate.delta (c : Candidate P V) : V := c.cut - c.anchor

def Round.change (ρ : Round P V) (f : Fin P.fragments) : V := ρ.trained f - ρ.start f

namespace Island

variable (s : Island P V)

/-- The current cut is the next submission (`finish_rebase`, and
`complete_local_round` when it holds nothing back). -/
def finishRebase : Island P V :=
  { s with
    submissionCut := s.current,
    submissionFragmentVersions := s.fragmentVersions,
    submissionCounters := s.counters }

def completeLocalRound (trained : Cut P V) (tokens : Nat) : Island P V :=
  { s with
    current := trained,
    counters := ⟨s.counters.rounds + 1, s.counters.tokens + tokens⟩,
    rounds := s.rounds ++ [⟨s.current, trained, tokens⟩] }

def markRoundBase : Island P V := { s with roundBase := s.current, baseCounters := s.counters }

def candidate (k : Nat) (f : Fin P.fragments) : Candidate P V where
  step := P.stepOf k f
  fragment := f
  cSteps := s.submissionCounters.rounds - (s.anchorCounters f).rounds
  cTokens := s.submissionCounters.tokens - (s.anchorCounters f).tokens
  cut := s.submissionCut f
  anchor := s.anchors f

/-- The PULL of the step can be answered from the submission cut. -/
def qualified (c : Candidate P V) : Bool :=
  decide (s.fragmentVersions c.fragment = P.expectedBase c.step
    ∧ s.submissionFragmentVersions c.fragment = P.expectedBase c.step
    ∧ 1 ≤ c.cSteps ∧ 1 ≤ c.cTokens)

/-- `apply_staged_broadcast` with `rebase`: the trainer keeps its progress
since the round base. -/
def applyStagedBroadcast (t : Nat) (f : Fin P.fragments) : Island P V :=
  { s with
    current := Function.update s.current f (G t + (s.current f - s.roundBase f)),
    anchors := Function.update s.anchors f (G t),
    fragmentVersions := Function.update s.fragmentVersions f t,
    anchorCounters := Function.update s.anchorCounters f s.baseCounters,
    inflight := s.inflight.erase t }

/-- The step of the sweep behind the versions of now is in flight. -/
def isPushed (f : Fin P.fragments) : Bool :=
  let version := s.fragmentVersions f
  s.inflight.contains (if version = 0 then f.val + 1 else version + P.fragments)

def exec (s : Island P V) : Op P V → Option (Island P V)
  | .complete trained tokens =>
    let s' := s.completeLocalRound trained tokens
    if s.phase = .training then
      -- with a sweep in flight the new cut is held back
      if s.pendingSweep.isSome then some { s' with phase := .waiting }
      else some { s'.finishRebase with phase := .pushing }
    else none
  | .submit k f =>
    let c := s.candidate k f
    if (s.phase = .waiting ∨ s.phase = .pushing) ∧ s.qualified c = true ∧ c.step ∉ s.inflight
    then some { s with inflight := c.step :: s.inflight, pushes := c :: s.pushes }
    else none
  | .apply k f =>
    let t := P.stepOf k f
    if s.phase = .waiting ∧ t ∈ s.inflight ∧ s.fragmentVersions f = P.expectedBase t
    then some (s.applyStagedBroadcast G t f)
    else none
  | .applied =>
    match s.pendingSweep with
    | none => none
    | some before =>
      if s.phase = .waiting ∧ (List.finRange P.fragments).all (fun f =>
          decide (before f < s.fragmentVersions f)) = true
      then some { s.finishRebase with pendingSweep := none, phase := .pushing }
      else none
  | .pushed =>
    if s.phase = .pushing ∧ (List.finRange P.fragments).all s.isPushed = true
    then
      if P.totalRounds ≤ s.rolloutId + 1 then
        some { s with rolloutId := s.rolloutId + 1, phase := .finished }
      else some { s.markRoundBase with
        pendingSweep := some s.fragmentVersions,
        rolloutId := s.rolloutId + 1, phase := .training }
    else none

def initial (cut : Cut P V) : Island P V :=
  { current := cut, anchors := cut, roundBase := cut, submissionCut := cut }

end Island

def system (cut : Cut P V) : System (Island P V) :=
  .guarded (.initial cut) (fun _ _ => true) (Island.exec G)

end Yeto.Overlap
