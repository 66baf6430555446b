/-
Whole runs of peer recovery: the state machine of `recovery.rs` with the calls
the scheduler makes of it (`syncer/src/server.rs`, the `Recovery` event and
`finish_recovery_replay`).

A recovering island is in the registry (`recovering`) from its HELLO until it
is promoted, its connection closes or its lease expires. A restore report that
the machine accepts starts a replay; when the fragments are out, the island is
promoted if the registry still has it, and the machine is told. `history` keeps
of each island the donors asked, the sources offered, and how it ended.
-/
import Yeto.Server.Recovery
import Yeto.Lib.System

namespace Yeto.Server

open Lib

/-- What happens to one recovery. -/
inductive RecoveryEvent
  | began (member : Member) (step : Nat) (versions : List Nat)
  | asked (donor : Member)
  | offered (kind : SourceKind) (versions : List Nat)
  | refused
  | restored
  | promoted
  | done
deriving DecidableEq, Repr

/-- What a message of the syncer says of an island. -/
def eventFor (id : U32) : Member × RecoveryMsg → Option RecoveryEvent
  | (_, .clock ..) => none
  | (donor, .snapshotReq recovering _ _) =>
    if recovering.learnerId = id then some (.asked donor) else none
  | (island, .source kind versions) =>
    if island.learnerId = id then some (.offered kind versions) else none
  | (island, .done ..) => if island.learnerId = id then some .done else none

def noted (h : U32 → List RecoveryEvent) (out : List (Member × RecoveryMsg)) :
    U32 → List RecoveryEvent := fun id => h id ++ out.filterMap (eventFor id)

/-- The recoveries, and what happened to each. -/
structure Recoveries where
  recovery : PeerRecovery
  recovering : SortedMap U32 Member
  hellos : List Member
  replays : List (Member × Nat)
  registered : List Member
  history : U32 → List RecoveryEvent

def Recoveries.new : Recoveries := ⟨.new, .empty, [], [], [], fun _ => []⟩

inductive RecoveryOp
  | register (member : Member)
  | close (member : Member)
  | begin (member : Member) (step : Nat) (versions : List Nat)
      (candidates : List Candidate) (now : Nat)
  | snapshotReady (sender : Member) (ready : SnapshotReady)
      (candidates : List Candidate) (now : Nat)
  | failed (sender : Member) (candidates : List Candidate) (now : Nat)
  | gone (member : Member) (candidates : List Candidate) (now : Nat)
  | tick (candidates : List Candidate) (now : Nat)
  | restored (sender : Member) (held : Option (List Nat)) (current : List Nat)
  /-- The replay is out: `finish_recovery_replay`. -/
  | promote (member : Member) (doneStep : Nat) (versions : List Nat) (replayed : Nat)

namespace Recoveries

variable (cfg : Config) (w : Recoveries)

def call : RecoveryOp → List (Member × RecoveryMsg) × PeerRecovery
  | .begin member step versions candidates now =>
    -- A HELLO of an island that is no longer recovering begins nothing.
    if w.recovering.find member.learnerId = some member then
      w.recovery.begin cfg member step versions candidates now
    else ([], w.recovery)
  | .snapshotReady sender ready candidates now =>
    w.recovery.onSnapshotReady cfg sender ready candidates now
  | .failed sender candidates now => w.recovery.onFailed cfg sender candidates now
  | .gone member candidates now => w.recovery.onGone cfg member candidates now
  | .tick candidates now => w.recovery.onTick cfg candidates now
  | .register _ | .close _ | .restored .. | .promote .. => ([], w.recovery)

def answer (out : List (Member × RecoveryMsg) × PeerRecovery) : Recoveries :=
  { w with recovery := out.2, history := noted w.history out.1 }

def note (id : U32) (e : RecoveryEvent) : Recoveries :=
  { w with history := Function.update w.history id (w.history id ++ [e]) }

/-- A recovery that begins anew. -/
def opened (member : Member) (step : Nat) (versions : List Nat) : Recoveries :=
  { w with
    history := Function.update w.history member.learnerId [.began member step versions] }

def promote (member : Member) (doneStep : Nat) (versions : List Nat)
    (replayed : Nat) : Recoveries :=
  let finished := w.recovery.finish member doneStep versions replayed
  let rest := { w with
    recovery := finished.2
    replays := w.replays.erase (member, replayed) }
  if w.recovering.find member.learnerId = some member then
    let rest := { rest with
      recovering := w.recovering.erase member.learnerId }.note member.learnerId .promoted
    match finished.1 with
    | none => rest
    | some done => { rest with history := noted rest.history [(member, done)] }
  else rest

def exec : RecoveryOp → Option Recoveries
  | .register member =>
    some { w with
      recovering := w.recovering.insert member.learnerId member
      hellos := w.hellos ++ [member]
      registered := member :: w.registered }
  | .close member => some { w with recovering := RegistryState.removeSame w.recovering member }
  | .begin member step versions candidates now =>
    if member ∈ w.hellos then
      let out := w.call cfg (.begin member step versions candidates now)
      let w := { w with hellos := w.hellos.erase member }
      if w.recovering.find member.learnerId = some member then
        some ((w.opened member step versions).answer out)
      else some w
    else none
  | .snapshotReady sender ready candidates now =>
    -- An answer lists every fragment of the layout.
    if (w.recovery.pending.find ready.recovering.learnerId).all fun r =>
        decide (ready.versions.length = r.versions.length) then
      some (w.answer (w.call cfg (.snapshotReady sender ready candidates now)))
    else none
  | .failed sender candidates now =>
    let told := if w.recovery.isPending sender
      then w.note sender.learnerId .refused else w
    some (told.answer (w.call cfg (.failed sender candidates now)))
  | .gone member candidates now =>
    if w.recovering.find member.learnerId = some member then none
    else some (w.answer (w.call cfg (.gone member candidates now)))
  | .tick candidates now => some (w.answer (w.call cfg (.tick candidates now)))
  | .restored sender held current =>
    match w.recovery.onRestored sender held current with
    | none => some w
    | some replay =>
      some ({ w with
        replays := w.replays ++ [(sender, replay.length)] }.note sender.learnerId .restored)
  | .promote member doneStep versions replayed =>
    if (member, replayed) ∈ w.replays then
      some (w.promote member doneStep versions replayed)
    else none

end Recoveries

def recoveries (cfg : Config) (allowed : Recoveries → RecoveryOp → Bool) : System Recoveries :=
  .guarded .new allowed (Recoveries.exec cfg)

end Yeto.Server
