/-
Dynamic island membership (`syncer/src/membership.rs`): which connection
generation of an island is live, which generations are retired, and the fence
of an island that came back after its lease ran out.

Clock readings and durations are nanoseconds in `Nat`, the floating-point
options (θ, γ, the capacities) rationals, the hash maps and sets sorted maps.
`encode_persisted` and `restore_persisted` are byte for byte the source's, with
its messages. The island count is written `as u32`: modulo 2³².
-/
import Yeto.Lib.Bytes
import Yeto.Members
import Mathlib.Algebra.Order.Field.Rat

namespace Yeto

open Lib

structure Member where
  learnerId : U32
  generation : U64
deriving Repr

/-- The derived order of the source: by id, then by generation. -/
instance : LinearOrder Member := LinearOrder.lift' (fun m => toLex (m.learnerId, m.generation))
    (fun a b h => by
      cases a
      cases b
      simpa using h)

instance lawfulBEqMember : LawfulBEq Member := inferInstance

inductive QuorumRule
  | count
  /-- The answering islands hold at least `theta` of the expected
  capacity, and at least `qMin` of them answered. -/
  | capacity (theta : ℚ) (qMin : Nat)
deriving DecidableEq

structure MembershipConfig where
  quorumRule : QuorumRule
  lease : Option Nat
  softDeadline : Option Nat
  /-- Weight multiplier per version of base lag; 1 is no discount. -/
  carryGamma : ℚ
  /-- Relative capacity per island; one that is not listed has 1. -/
  capacities : SortedMap U32 ℚ
  maxLearners : Option U32
  finalGrace : Option Nat
deriving DecidableEq

namespace MembershipConfig

def default : MembershipConfig where
  quorumRule := .count
  lease := none
  softDeadline := none
  carryGamma := 1
  capacities := .empty
  maxLearners := none
  finalGrace := none

def isStatic (cfg : MembershipConfig) : Bool := decide (cfg = default)

/-- Exclusive upper bound on admitted island ids. -/
def idLimit (cfg : MembershipConfig) (learners : Nat) : Nat :=
  (cfg.maxLearners.map Fin.val).getD learners

/-- Fewest arrivals a soft-deadline merge accepts. -/
def softMinArrivals (cfg : MembershipConfig) : Nat :=
  match cfg.quorumRule with
  | .count => 1
  | .capacity _ qMin => max qMin 1

/-- Fewest connected islands needed to (re)launch a round. -/
def minLaunchMembers (cfg : MembershipConfig) (quorum : Nat) : Nat :=
  match cfg.quorumRule with
  | .count => quorum
  | .capacity _ qMin => max qMin 1

/-- Merge-weight multiplier for a push `lag` versions behind. -/
def carryDiscount (cfg : MembershipConfig) (lag : Nat) : ℚ :=
  if cfg.carryGamma = 1 ∨ lag = 0 then 1
  else cfg.carryGamma ^ min lag 2147483647

end MembershipConfig

structure CapacityQuorum where
  theta : ℚ
  qMin : Nat
  capacities : SortedMap U32 ℚ
deriving DecidableEq

namespace CapacityQuorum

def capacity (q : CapacityQuorum) (learnerId : U32) : ℚ := (q.capacities.find learnerId).getD 1

def total (q : CapacityQuorum) (members : List Member) : ℚ :=
  (members.map fun m => q.capacity m.learnerId).sum

def reached (q : CapacityQuorum) (expected arrived : List Member) : Bool :=
  if arrived.length < q.qMin then false
  else decide (0 < q.total expected ∧ q.theta * q.total expected ≤ q.total arrived)

end CapacityQuorum

def MembershipConfig.roundQuorum (cfg : MembershipConfig) : Option CapacityQuorum :=
  match cfg.quorumRule with
  | .count => none
  | .capacity theta qMin => some ⟨theta, max qMin 1, cfg.capacities⟩

inductive AdmitError
  /-- This generation was superseded, disconnected or expired before. -/
  | retiredGeneration
  | outOfRange (limit : U32)
  /-- The HELLO names an older syncer incarnation than this one. -/
  | staleSyncerEpoch (offered current : U64)
deriving DecidableEq, Repr

inductive Admission
  | join (replaced : Option U64)
  | rejoin
deriving DecidableEq, Repr

structure LiveMember where
  generation : U64
  lastSeen : Nat
  /-- Re-JOIN after expiry and catch-up not yet recorded. -/
  awaitingCatchUp : Bool
  /-- Per-fragment versions the island was caught up to on re-JOIN. -/
  catchUpFloor : Option (List Nat)
deriving DecidableEq, Repr

structure Membership where
  cfg : MembershipConfig
  idLimit : U32
  live : SortedMap U32 LiveMember
  retired : SortedMap U32 (Fence U64)
  expired : SortedMap U32 Unit
  /-- Bumped on every join, leave and expiry. -/
  epoch : Nat
  /-- Fencing token of this syncer incarnation. -/
  syncerEpoch : U64
  /-- The persisted part changed since the last `takeDirty`. -/
  dirty : Bool
deriving DecidableEq

def retiredPerIsland : Nat := 1024

namespace Membership

def new (cfg : MembershipConfig) (idLimit : U32) : Membership where
  cfg := cfg
  idLimit := idLimit
  live := .empty
  retired := .empty
  expired := .empty
  epoch := 0
  syncerEpoch := 0
  dirty := false

def raiseSyncerEpoch (m : Membership) (epoch : U64) : Membership :=
  if epoch > m.syncerEpoch then { m with syncerEpoch := epoch, dirty := true }
  else m

def checkSyncerEpoch (m : Membership) (offered : Option U64) : Except AdmitError Unit :=
  match offered with
  | some offered =>
    if offered < m.syncerEpoch
    then .error (.staleSyncerEpoch offered m.syncerEpoch) else .ok ()
  | none => .ok ()

def takeDirty (m : Membership) : Bool × Membership := (m.dirty, { m with dirty := false })

def isLive (m : Membership) (member : Member) : Bool :=
  match m.live.find member.learnerId with
  | some l => decide (l.generation = member.generation)
  | none => false

def fence (m : Membership) (id : U32) : Fence U64 := (m.retired.find id).getD .empty

def isRetired (m : Membership) (member : Member) : Bool :=
  (m.fence member.learnerId).contains member.generation

def retire (m : Membership) (member : Member) : Membership :=
  let fence := m.fence member.learnerId
  { m with
    dirty := m.dirty || !fence.contains member.generation
    retired := m.retired.insert member.learnerId (fence.add retiredPerIsland member.generation) }

def bump (m : Membership) : Membership := { m with epoch := (m.epoch + 1) % 18446744073709551616 }

/-- Admit a HELLO. A live older generation of the same island is
superseded, and retired. -/
def admitMember (m : Membership) (member : Member) (now : Nat) :
    Except AdmitError Admission × Membership :=
  if member.learnerId ≥ m.idLimit then (.error (.outOfRange m.idLimit), m)
  else if m.isRetired member || m.isLive member then
    (.error .retiredGeneration, m)
  else
    let rejoin := m.expired.contains member.learnerId
    let replaced := (m.live.find member.learnerId).map LiveMember.generation
    let m := { m with
      expired := m.expired.erase member.learnerId
      live := m.live.insert member.learnerId ⟨member.generation, now, rejoin, none⟩ }
    let m := match replaced with
      | some generation => m.retire ⟨member.learnerId, generation⟩
      | none => m
    (.ok (if rejoin then .rejoin else .join replaced), m.bump)

/-- Record the versions a re-joined island was caught up to. -/
def recordCatchUp (m : Membership) (member : Member) (versions : List Nat) : Membership :=
  match m.live.find member.learnerId with
  | some l =>
    if l.generation = member.generation ∧ l.awaitingCatchUp = true then
      let l := { l with awaitingCatchUp := false, catchUpFloor := some versions }
      { m with live := m.live.insert member.learnerId l }
    else m
  | none => m

def renew (m : Membership) (member : Member) (now : Nat) : Bool × Membership :=
  match m.live.find member.learnerId with
  | some l =>
    if l.generation = member.generation then
      let l := { l with lastSeen := now }
      (true, { m with live := m.live.insert member.learnerId l })
    else (false, m)
  | none => (false, m)

def depart (m : Membership) (member : Member) : Membership :=
  let m := if m.isLive member
    then bump { m with live := m.live.erase member.learnerId } else m
  m.retire member

def gone (m : Membership) (now : Nat) : List Member :=
  match m.cfg.lease with
  | none => []
  | some lease =>
    (m.live.entries.filter fun e => decide (now - e.2.lastSeen ≥ lease)).map
      fun e => ⟨e.1, e.2.generation⟩

def expireOne (m : Membership) (member : Member) : Membership :=
  let m := { m with
    live := m.live.erase member.learnerId
    expired := m.expired.insert member.learnerId () }
  (m.retire member).bump

def expire (m : Membership) (now : Nat) : List Member × Membership :=
  (m.gone now, (m.gone now).foldl expireOne m)

/-- Per-fragment fence for a push from a re-joined island. Pushes from any
other generation pass here. -/
def checkPushBase (m : Membership) (member : Member)
    (fragment baseVersion : Nat) : Except String Unit :=
  match m.live.find member.learnerId with
  | some l =>
    if l.generation = member.generation then
      match l.catchUpFloor.bind fun floor => floor[fragment]? with
      | some floor =>
        if baseVersion ≥ floor then .ok ()
        else .error (s!"fragment {fragment} base version {baseVersion} "
          ++ s!"predates the re-JOIN catch-up version {floor}")
      | none => .ok ()
    else .ok ()
  | none => .ok ()

def persistMagic : List UInt8 := [0x59, 0x4d, 0x42, 0x31]

def encodeIsland (e : U32 × Fence U64) : List UInt8 := le 4 e.1.val ++ (le 4 e.2.order.length
    ++ e.2.order.flatMap fun generation => le 8 generation.val)

/-- magic | syncer_epoch u64 | islands u32 | per island (id u32 |
count u32 | count × generation u64, oldest first). -/
def encodePersisted (m : Membership) : List UInt8 :=
  persistMagic ++ (le 8 m.syncerEpoch.val ++ (le 4 m.retired.size
    ++ m.retired.entries.flatMap encodeIsland))

def truncated : String := "membership record is truncated"

def readIsland : Reader (List Member) := do
  let id ← Reader.word truncated 4
  let count ← Reader.word truncated 4
  Reader.ensure (count ≤ retiredPerIsland)
    s!"membership record retires {count} generations of island {id}"
  let generations ← Reader.many (Reader.word truncated 8) count
  pure (generations.map fun g => ⟨Fin.ofNat _ id, Fin.ofNat _ g⟩)

def readRecord : Reader (Nat × List (List Member)) := do
  let magic ← Reader.take truncated 4
  Reader.ensure (magic = persistMagic) "membership record has a bad magic"
  let epoch ← Reader.word truncated 8
  let islands ← Reader.word truncated 4
  let retired ← Reader.many readIsland islands
  let left ← Reader.rest
  Reader.ensure (left = [])
    s!"membership record has {left.length} trailing bytes"
  pure (epoch, retired)

/-- Restore a record into this membership: parsed fully before any state
changes. -/
def restorePersisted (m : Membership) (bytes : List UInt8) : Except String Membership :=
  match readRecord bytes with
  | .error message => .error message
  | .ok ((epoch, retired), _) =>
    .ok (retired.flatten.foldl retire (m.raiseSyncerEpoch (Fin.ofNat _ epoch)))

end Membership

end Yeto
