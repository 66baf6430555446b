/-
The connection registry (`RegistryState` in `syncer/src/server.rs`): which
connections are registered, which generation of each island takes part in
rounds, and which is still recovering. Every operation is one step, under the
registry's lock.

A connection (`Arc<Group>`) is its member and a number that tells it apart from
every other connection. `membership_record` is the content of the record file.
-/
import Yeto.Membership.Model
import Mathlib.Data.List.Sort

namespace Yeto.Server

open Lib

structure Group where
  member : Member
  conn : Nat
deriving DecidableEq, Repr

/-- The HELLO extension, as far as registration reads it. -/
structure HelloExt where
  syncerEpoch : Option U64
  recover : Bool
deriving DecidableEq, Repr

inductive RegisterError
  | duplicate
  | fenced (reason : AdmitError)
deriving DecidableEq, Repr

structure RegistryState where
  /-- The generation eligible for future rounds for each learner. -/
  current : SortedMap U32 Member
  groups : SortedMap Member Group
  membership : Membership
  recovering : SortedMap U32 Member
  membershipRecord : Option (List UInt8)
  /-- Generations whose connection closed but whose `Disconnected` event
  the scheduler has not handled yet, with how many such closes. -/
  closing : SortedMap Member U32
deriving DecidableEq

namespace RegistryState

def new (membership : Membership) (record : Option (List UInt8)) : RegistryState where
  current := .empty
  groups := .empty
  membership := membership
  recovering := .empty
  membershipRecord := record
  closing := .empty

def persistMembership (r : RegistryState) : RegistryState :=
  if r.membership.dirty then
    { r with
      membership := r.membership.takeDirty.2
      membershipRecord := r.membershipRecord.map fun _ => r.membership.encodePersisted }
  else r

/-- The maps once `group` was admitted: a recovering island is registered
without joining `current` (the previous generation still leaves it). -/
def enter (r : RegistryState) (group : Group) (recover : Bool)
    (membership : Membership) : RegistryState :=
  let member := group.member
  { r with
    membership := membership
    groups := r.groups.insert member group
    recovering := if recover
      then r.recovering.insert member.learnerId member
      else r.recovering.erase member.learnerId
    current := if recover
      then r.current.erase member.learnerId
      else r.current.insert member.learnerId member }

/-- Atomically register one control connection generation. The
syncer-epoch fence runs first. -/
def registerGroupWith (r : RegistryState) (group : Group) (now : Nat) (ext : HelloExt) :
    Except RegisterError (Option Member × Admission) × RegistryState :=
  let member := group.member
  if r.groups.contains member then (.error .duplicate, r)
  else
    match r.membership.checkSyncerEpoch ext.syncerEpoch with
    | .error reason => (.error (.fenced reason), r)
    | .ok () =>
      match r.membership.admitMember member now with
      | (.error reason, m) => (.error (.fenced reason), { r with membership := m })
      | (.ok admission, m) =>
        (.ok (r.current.find member.learnerId, admission),
          (r.enter group ext.recover m).persistMembership)

def removeSame (map : SortedMap U32 Member) (member : Member) : SortedMap U32 Member :=
  if map.find member.learnerId = some member then map.erase member.learnerId
  else map

def leaveRoster (r : RegistryState) (member : Member) : RegistryState :=
  { r with
    current := removeSame r.current member
    recovering := removeSame r.recovering member }

def unregister (r : RegistryState) (member : Member) : RegistryState :=
  let r := { r with
    groups := r.groups.erase member
    closing := r.closing.insert member ((r.closing.find member).getD 0 + 1) }
  let r := r.leaveRoster member
  persistMembership { r with membership := r.membership.depart member }

/-- The scheduler handled the `Disconnected` event of `member`. -/
def disconnectHandled (r : RegistryState) (member : Member) : RegistryState :=
  match r.closing.find member with
  | some count =>
    { r with closing := if count - 1 = 0 then r.closing.erase member
        else r.closing.insert member (count - 1) }
  | none => r

def isRecovering (r : RegistryState) (member : Member) : Bool :=
  decide (r.recovering.find member.learnerId = some member)

def promoteRecovered (r : RegistryState) (member : Member) : Bool × RegistryState :=
  if r.isRecovering member then
    (true, { r with
      recovering := r.recovering.erase member.learnerId
      current := r.current.insert member.learnerId member })
  else (false, r)

/-- Remove members whose lease expired from future rounds. Their
connections stay registered until they close. -/
def expireLeases (r : RegistryState) (now : Nat) : List (Member × Option Group) × RegistryState :=
  let gone := r.membership.gone now
  let r := { r with membership := (r.membership.expire now).2 }
  (gone.map fun member => (member, r.groups.find member),
    (gone.foldl leaveRoster r).persistMembership)

def currentGroups (r : RegistryState) : List Group :=
  (r.current.values.filterMap r.groups.find).insertionSort fun a b => a.member ≤ b.member

def isCurrentMember (r : RegistryState) (member : Member) : Bool :=
  decide (r.current.find member.learnerId = some member)

end RegistryState

end Yeto.Server
