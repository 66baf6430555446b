/-
Peer recovery of an island that lost its trainer state
(`syncer/src/recovery.rs`): the state machine, with every clock reading
passed in and every message returned. The messages carry the clocks and the
versions they name.
-/
import Yeto.Server.Config
import Yeto.Server.Registry
import Mathlib.Data.List.MinMax

namespace Yeto.Server

open Lib

structure Candidate where
  member : Member
  /-- Pulls the member has not answered yet. -/
  outstanding : Nat
deriving DecidableEq, Repr

inductive SourceKind
  | peer (donor : Member)
  | degraded
deriving DecidableEq, Repr

inductive RecoveryMsg
  | clock (step : Nat) (versions : List Nat) (donor : Option Member)
  | snapshotReq (recovering : Member) (step : Nat) (versions : List Nat)
  | source (kind : SourceKind) (versions : List Nat)
  | done (step doneStep replayed : Nat) (versions : List Nat)
deriving DecidableEq, Repr

inductive RecoveryPhase
  | awaitSnapshot (donor : Member) (deadline : Nat)
  | awaitRestore (source : SourceKind)
deriving DecidableEq, Repr

structure Recovering where
  member : Member
  /-- The durable clock it started from: `t_s` and `V_s`. -/
  step : Nat
  versions : List Nat
  phase : RecoveryPhase
  tried : List U32
  attempts : Nat
deriving DecidableEq, Repr

def Recovering.donor (r : Recovering) : Option Member :=
  match r.phase with
  | .awaitSnapshot donor _ => some donor
  | .awaitRestore _ => none

structure SnapshotReady where
  recovering : Member
  versions : List Nat
deriving DecidableEq, Repr

structure PeerRecovery where
  pending : SortedMap U32 Recovering
deriving DecidableEq

namespace PeerRecovery

def new : PeerRecovery := ⟨.empty⟩

def isPending (s : PeerRecovery) (member : Member) : Bool :=
  (s.pending.find member.learnerId).any fun r => decide (r.member = member)

/-- The least busy island that was not tried and is not recovering. -/
def pickDonor (cfg : Config) (s : PeerRecovery) (learnerId : U32)
    (candidates : List Candidate) : Option Member :=
  match s.pending.find learnerId with
  | none => none
  | some r =>
    if r.attempts ≥ cfg.maxDonorTries then none
    else
      ((candidates.filter fun c =>
          decide (c.member.learnerId ≠ learnerId) && decide (c.member.learnerId ∉ r.tried)
            && !s.pending.contains c.member.learnerId).argmin
        fun c => (toLex (c.outstanding, c.member.learnerId.val) : Nat ×ₗ Nat)).map Candidate.member

def ask (cfg : Config) (s : PeerRecovery) (learnerId : U32) (donor : Option Member) (now : Nat) :
    List (Member × RecoveryMsg) × PeerRecovery :=
  match s.pending.find learnerId with
  | none => ([], s)
  | some r =>
    match donor with
    | some donor =>
      let next := { r with
        attempts := r.attempts + 1
        tried := donor.learnerId :: r.tried
        phase := .awaitSnapshot donor (now + cfg.donorTimeout) }
      ([(donor, .snapshotReq r.member r.step r.versions)], ⟨s.pending.insert learnerId next⟩)
    | none =>
      let next := { r with phase := .awaitRestore .degraded }
      ([(r.member, .source .degraded (r.versions.map fun _ => 0))],
        ⟨s.pending.insert learnerId next⟩)

def nextDonor (cfg : Config) (s : PeerRecovery) (learnerId : U32)
    (candidates : List Candidate) (now : Nat) : List (Member × RecoveryMsg) × PeerRecovery :=
  s.ask cfg learnerId (s.pickDonor cfg learnerId candidates) now

def nextDonors (cfg : Config) (s : PeerRecovery) (ids : List U32)
    (candidates : List Candidate) (now : Nat) : List (Member × RecoveryMsg) × PeerRecovery :=
  ids.foldl (fun acc id =>
    let (out, s) := acc.2.nextDonor cfg id candidates now
    (acc.1 ++ out, s)) ([], s)

def begin (cfg : Config) (s : PeerRecovery) (member : Member) (step : Nat)
    (versions : List Nat) (candidates : List Candidate) (now : Nat) :
    List (Member × RecoveryMsg) × PeerRecovery :=
  let s : PeerRecovery := ⟨s.pending.insert member.learnerId
    { member, step, versions, phase := .awaitRestore .degraded
      tried := [], attempts := 0 }⟩
  let donor := s.pickDonor cfg member.learnerId candidates
  let (out, s) := s.ask cfg member.learnerId donor now
  ((member, .clock step versions donor) :: out, s)

/-- A donor answered. A donor behind the clock broke the request, and the
next one is asked. -/
def onSnapshotReady (cfg : Config) (s : PeerRecovery) (sender : Member)
    (ready : SnapshotReady) (candidates : List Candidate) (now : Nat) :
    List (Member × RecoveryMsg) × PeerRecovery :=
  let learnerId := ready.recovering.learnerId
  match s.pending.find learnerId with
  | none => ([], s)
  | some r =>
    if r.member ≠ ready.recovering ∨ r.donor ≠ some sender then ([], s)
    else if (List.zip ready.versions r.versions).any fun e => decide (e.1 < e.2) then
      s.nextDonor cfg learnerId candidates now
    else
      let next := { r with phase := .awaitRestore (.peer sender) }
      ([(r.member, .source (.peer sender) ready.versions)], ⟨s.pending.insert learnerId next⟩)

def onFailed (cfg : Config) (s : PeerRecovery) (sender : Member)
    (candidates : List Candidate) (now : Nat) : List (Member × RecoveryMsg) × PeerRecovery :=
  match s.pending.find sender.learnerId with
  | none => ([], s)
  | some r =>
    if r.member ≠ sender ∨ r.phase = .awaitRestore .degraded then ([], s)
    else s.nextDonor cfg sender.learnerId candidates now

def onGone (cfg : Config) (s : PeerRecovery) (member : Member)
    (candidates : List Candidate) (now : Nat) : List (Member × RecoveryMsg) × PeerRecovery :=
  let s : PeerRecovery := if s.isPending member then ⟨s.pending.erase member.learnerId⟩ else s
  s.nextDonors cfg ((s.pending.entries.filter fun e => decide (e.2.donor = some member)).map
      Prod.fst) candidates now

def onTick (cfg : Config) (s : PeerRecovery) (candidates : List Candidate)
    (now : Nat) : List (Member × RecoveryMsg) × PeerRecovery := s.nextDonors cfg
    ((s.pending.entries.filter fun e =>
      match e.2.phase with
      | .awaitSnapshot _ deadline => decide (now ≥ deadline)
      | .awaitRestore _ => false).map Prod.fst) candidates now

/-- The island restored a source and holds `held` (none: nothing
reliable). The fragments whose current version is newer, or none when the
report is refused. -/
def onRestored (s : PeerRecovery) (sender : Member)
    (held : Option (List Nat)) (current : List Nat) : Option (List Nat) :=
  match s.pending.find sender.learnerId with
  | none => none
  | some r =>
    if r.member ≠ sender ∨ r.donor.isSome then none
    else
      match held with
      | none => some (List.range current.length)
      | some held =>
        if held.length ≠ current.length then none
        else if (List.zip held current).any fun e => decide (e.1 > e.2) then none
        else
          some ((List.range current.length).filter fun p =>
            decide (current.getD p 0 > held.getD p 0))

def finish (s : PeerRecovery) (member : Member) (doneStep : Nat)
    (versions : List Nat) (replayed : Nat) : Option RecoveryMsg × PeerRecovery :=
  match s.pending.find member.learnerId with
  | none => (none, s)
  | some r =>
    if r.member ≠ member then (none, s)
    else
      (if r.donor.isSome then none
        else some (.done r.step doneStep replayed versions), ⟨s.pending.erase member.learnerId⟩)

end PeerRecovery

end Yeto.Server
