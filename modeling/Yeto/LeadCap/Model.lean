/-
The lead cap of the asynchronous rounds
(`yeto/rl/engine/full_parameter_sync.py`: `RolePairing`, `_boundary`;
`yeto/rl/engine/full_parameter_stream.py`: `ready_submission_candidates`,
`_queue_pulls`), with the rounds of the syncer (`syncer/src/server.rs`:
`Round::quorum_reached`).

An island trains a local round or is at the boundary behind one, where it
answers PULLs and applies broadcasts, in any order, until the lead cap lets it
train on. No wait for the cap gives up and the terminal phase has not begun.
The roles of an island are one here. A PULL can come again, and late. H = 1.
The roster is fixed, and a merge needs a push of every island.
-/
import Mathlib.Data.Fintype.Card
import Yeto.Lib.SortedMap
import Yeto.Lib.System

namespace Yeto.LeadCap

open Lib

structure Profile where
  islands : Nat
  fragments : Nat
  localHorizon : Nat
  pipelineDepth : Nat
  maxLocalRoundsAhead : Option Nat
  fragments_pos : 0 < fragments

variable (P : Profile)

def Profile.effectivePipelineDepth : Nat := min P.pipelineDepth P.fragments

def Profile.fragmentForStep (t : Nat) : Nat := (t - 1) % P.fragments

def Profile.expectedBase (t : Nat) : Nat := t - P.fragments

/-- `inflight` has the local round of each pair by its step, `pending` the
step of the PULL of each fragment. `pushed` is the history: each push with
its step and the local round whose cut it is. -/
structure Island where
  localRound : Nat := 0
  training : Bool := false
  retainedRound : Nat := 0
  inflight : SortedMap Nat Nat := .empty
  pending : SortedMap Nat Nat := .empty
  fragmentVersions : Nat → Nat := fun _ => 0
  submissionFragmentVersions : Nat → Nat := fun _ => 0
  roundsAtAnchor : Nat → Nat := fun _ => 0
  pushed : List (Nat × Nat) := []

/-- The rounds of the pairs that stop the next local round. -/
def Island.leadBlockers (s : Island) : List Nat :=
  match P.maxLocalRoundsAhead with
  | none => []
  | some limit => s.inflight.values.filter fun r => decide (r + limit ≤ s.localRound + 1)

def Island.leadUnpushed (s : Island) : Bool :=
  match P.maxLocalRoundsAhead with
  | none => false
  | some limit => decide (s.retainedRound + limit ≤ s.localRound)

/-- The PULL of step `t` can be answered from the cut. -/
def Island.readyCandidate (s : Island) (t : Nat) : Bool :=
  let p := P.fragmentForStep t
  decide (0 < s.localRound ∧ s.pending.find p = some t ∧ s.fragmentVersions p = P.expectedBase t
    ∧ s.submissionFragmentVersions p = P.expectedBase t
    ∧ P.localHorizon ≤ s.localRound - s.roundsAtAnchor p)

def Island.queuePull (s : Island) (t : Nat) : Island :=
  let p := P.fragmentForStep t
  match s.pending.find p with
  | none => { s with pending := s.pending.insert p t }
  | some previous => if previous < t then { s with pending := s.pending.insert p t } else s

def Island.completeLocalRound (s : Island) : Island :=
  { s with
    localRound := s.localRound + 1, training := false,
    submissionFragmentVersions := s.fragmentVersions }

def Island.newPair (s : Island) (t : Nat) : Island :=
  { s with
    retainedRound := max s.retainedRound s.localRound,
    inflight := s.inflight.insert t s.localRound,
    pending := s.pending.erase (P.fragmentForStep t),
    pushed := (t, s.localRound) :: s.pushed }

def Island.applyPair (s : Island) (t : Nat) : Island :=
  let p := P.fragmentForStep t
  { s with
    inflight := s.inflight.erase t,
    fragmentVersions := Function.update s.fragmentVersions p t,
    roundsAtAnchor := Function.update s.roundsAtAnchor p s.localRound }

def Island.started (s : Island) : Nat := s.localRound + s.training.toNat

structure World where
  islands : Fin P.islands → Island := fun _ => {}
  opened : Nat := 0
  pushes : Nat → Finset (Fin P.islands) := fun _ => ∅
  merged : List Nat := []

inductive Op
  | launch
  | pull (i : Fin P.islands) (t : Nat)
  | train (i : Fin P.islands)
  | complete (i : Fin P.islands)
  | push (i : Fin P.islands) (t : Nat)
  | receive (i : Fin P.islands) (t : Nat)
  | merge (t : Nat)
  | apply (i : Fin P.islands) (t : Nat)

variable {P}

def World.set (w : World P) (i : Fin P.islands) (s : Island) : World P :=
  { w with islands := Function.update w.islands i s }

def World.exec (w : World P) : Op P → Option (World P)
  | .launch =>
    if w.opened - w.merged.length < P.pipelineDepth ∧ ∀ t ∈ List.range' 1 w.opened,
          P.fragmentForStep t = P.fragmentForStep (w.opened + 1) → t ∈ w.merged
    then some { w with opened := w.opened + 1 } else none
  | .pull i t =>
    if 0 < t ∧ t ≤ w.opened then some (w.set i ((w.islands i).queuePull P t))
    else none
  | .train i =>
    let s := w.islands i
    if s.training = false ∧ s.leadBlockers P = [] ∧ s.leadUnpushed P = false
    then some (w.set i { s with training := true }) else none
  | .complete i =>
    if (w.islands i).training then
      some (w.set i (w.islands i).completeLocalRound)
    else none
  | .push i t =>
    let s := w.islands i
    if s.training = false ∧ s.readyCandidate P t = true ∧ s.inflight.contains t = false
        ∧ s.inflight.size < P.effectivePipelineDepth
    then some (w.set i (s.newPair P t)) else none
  | .receive i t =>
    if (∃ e ∈ (w.islands i).pushed, e.1 = t) ∧ t ∉ w.merged then
      some { w with pushes := Function.update w.pushes t (insert i (w.pushes t)) }
    else none
  | .merge t =>
    if 0 < t ∧ t ≤ w.opened ∧ t ∉ w.merged ∧ P.islands ≤ (w.pushes t).card
    then some { w with merged := t :: w.merged } else none
  | .apply i t =>
    let s := w.islands i
    if s.training = false ∧ t ∈ w.merged
        ∧ s.fragmentVersions (P.fragmentForStep t) = P.expectedBase t
    then some (w.set i (s.applyPair P t)) else none

/-- An island pushes once from the cut of a local round. Nothing in the code
asks for it when there are several fragments. -/
def World.oncePerCut (w : World P) : Op P → Bool
  | .push i _ => decide ((w.islands i).retainedRound < (w.islands i).localRound)
  | _ => true

variable (P)

def runs : System (World P) := .guarded {} (fun _ _ => true) World.exec

def oncePerCutRuns : System (World P) := .guarded {} World.oncePerCut World.exec

end Yeto.LeadCap
