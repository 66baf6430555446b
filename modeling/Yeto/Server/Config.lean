/-
The options of a training run (`Config` in `syncer/src/server.rs`) that the
scheduler reads, and the checks a run starts with. `schedule` and `layout`
come from the shard plan and the layout of the first HELLO.
-/
import Yeto.Membership.Model
import Yeto.Server.Shard

namespace Yeto.Server

open Lib

inductive LearnerWeight
  | tokens2OverSteps
  | equal
deriving DecidableEq, Repr

def LearnerWeight.function : LearnerWeight → Nat → Nat → ℚ
  | .tokens2OverSteps, cTokens, cSteps => if cSteps = 0 then 0 else (cTokens : ℚ) * cTokens / cSteps
  | .equal, _, _ => 1

/-- How a round that the exact fold cannot reproduce reduces its pushes. -/
inductive WeightedFoldMode
  | buffered
  | streaming
deriving DecidableEq, Repr

inductive MergeMode
  | avg
  | rda
  | iso
  | unknown
deriving DecidableEq, Repr

structure FragmentInfo where
  tensorNumels : List Nat
  mergeMode : MergeMode
deriving DecidableEq, Repr

def FragmentInfo.numel (f : FragmentInfo) : Nat := f.tensorNumels.sum

/-- Whether the folds reproduce the fragment's merge. -/
def FragmentInfo.folds (f : FragmentInfo) : Bool :=
  match f.mergeMode with
  | .avg | .rda | .iso => true
  | .unknown => false

structure Config where
  schedule : ShardSchedule
  layout : List FragmentInfo
  totalSteps : Nat
  learners : Nat
  quorum : Nat
  graceMs : Nat
  pipeline : Nat
  quorumTimeout : Nat
  maxBaseLag : Option Nat
  membership : MembershipConfig
  learnerWeight : LearnerWeight
  weightedFold : WeightedFoldMode
  deltaCorrection : Bool
  expertTokenWeights : Bool
  policySweepFragments : Option Nat
  checkpointPath : Bool
  checkpointEvery : Nat
  asyncCheckpoint : Bool
  inlineResend : Bool
  inlineBroadcast : Bool
  bcastDeltaFullEvery : Option Nat
  maxDonorTries : Nat
  donorTimeout : Nat
  fragments : layout.length = schedule.fragments

namespace Config

def strictExact (cfg : Config) : Bool := decide (cfg.maxBaseLag = some 0)

/-- Every logical learner must answer every round. -/
def fixedRoster (cfg : Config) : Bool := cfg.strictExact && decide (cfg.quorum = cfg.learners)
    && decide (cfg.graceMs = 0)

def dynamic (cfg : Config) : Bool := !cfg.membership.isStatic

def sharded (cfg : Config) : Bool :=
  decide (cfg.schedule.stop - cfg.schedule.first < cfg.schedule.fragments)

def lastStep (cfg : Config) : Nat := cfg.schedule.lastStep cfg.totalSteps

/-- Rounds in flight at once, clamped to the owned fragments. -/
def depth (cfg : Config) : Nat := min (max cfg.pipeline 1) (cfg.schedule.stop - cfg.schedule.first)

def checkpointBeforeBroadcast (cfg : Config) : Bool :=
  cfg.checkpointPath && decide (cfg.checkpointEvery = 1)

/-- Whether step `t` must be durable before its BCAST. -/
def persistBeforeBroadcast (cfg : Config) (t : Nat) : Bool := cfg.checkpointBeforeBroadcast
    || (cfg.policySweepFragments.isSome && cfg.checkpointPath && decide (0 < cfg.checkpointEvery)
      && decide (t % cfg.checkpointEvery = 0))

def startupMembers (cfg : Config) : Nat :=
  if cfg.membership.isStatic then cfg.learners
  else max 1 (min (cfg.membership.minLaunchMembers cfg.quorum) cfg.learners)

def refuseIf (c : Bool) (message : String) : Except String Unit :=
  if c then .error message else .ok ()

theorem refuseIf_bind {c : Bool} {message : String} {k : Unit → Except String Unit} :
    (refuseIf c message >>= k) = .ok () ↔ c = false ∧ k () = .ok () := by
  cases c with
  | false => exact ⟨fun h => ⟨rfl, h⟩, fun h => h.2⟩
  | true =>
    constructor
    · intro h
      cases h
    · rintro ⟨h, -⟩
      cases h

def validateMembership (cfg : Config) : Except String Unit := do
  let m := cfg.membership
  let limit := m.idLimit cfg.learners
  match m.quorumRule with
  | .count => pure ()
  | .capacity theta qMin =>
    refuseIf (¬ (0 < theta ∧ theta ≤ 1)) "--quorum-theta must be in (0, 1]"
    refuseIf (qMin = 0) "--q-min must be >= 1"
    refuseIf (cfg.quorum ≠ 1)
      "--quorum-theta replaces --quorum; leave --quorum at 1"
  refuseIf (m.lease = some 0) "--island-lease-s must be positive"
  refuseIf (m.softDeadline = some 0) "--soft-deadline-s must be positive"
  refuseIf (¬ (0 < m.carryGamma ∧ m.carryGamma ≤ 1))
    "--carry-gamma must be in (0, 1]"
  refuseIf (m.capacities.entries.any fun e => decide (e.2 ≤ 0))
    "island capacity must be > 0"
  refuseIf (m.capacities.entries.any fun e => decide (e.1.val ≥ limit))
    "island capacity id is out of range"
  refuseIf (m.maxLearners.any fun max => decide (max.val < cfg.learners))
    "--max-learners must be >= --learners"

def validateSweep (cfg : Config) (fragments : Nat) : Except String Unit := do
  refuseIf (fragments = 0) "--policy-sweep-fragments must be positive"
  refuseIf (cfg.totalSteps = 0)
    "--policy-sweep-fragments requires positive --total-steps"
  refuseIf (cfg.pipeline = 0 ∨ cfg.pipeline > fragments)
    ("--policy-sweep-fragments requires --pipeline between 1 and the "
      ++ "fragment count")
  refuseIf (¬ cfg.totalSteps % fragments = 0)
    "--total-steps must be divisible by --policy-sweep-fragments"
  refuseIf (!cfg.fixedRoster)
    ("--policy-sweep-fragments requires a strict fixed roster: "
      ++ "--max-base-lag 0, --quorum=--learners, and --grace-ms 0")
  refuseIf cfg.deltaCorrection
    "--policy-sweep-fragments requires --delta-correction none"
  refuseIf (cfg.learnerWeight ≠ .equal)
    "--policy-sweep-fragments requires --learner-weight equal"
  refuseIf cfg.expertTokenWeights
    "--policy-sweep-fragments does not support --expert-token-weights"
  refuseIf (!cfg.checkpointPath || decide (cfg.checkpointEvery = 0)
      || decide (cfg.checkpointEvery ≠ 1 ∧ ¬ cfg.checkpointEvery % fragments = 0))
    ("--policy-sweep-fragments requires --checkpoint-path and "
      ++ "--checkpoint-every 1 or a multiple of the fragment count")

def validate (cfg : Config) : Except String Unit := do
  refuseIf (cfg.learners = 0) "--learners must be positive"
  refuseIf (cfg.quorum = 0) "--quorum must be positive"
  refuseIf (cfg.quorum > cfg.learners) "--quorum must not exceed --learners"
  refuseIf (cfg.quorumTimeout = 0) "--quorum-timeout-s must be positive"
  cfg.validateMembership
  refuseIf (!cfg.membership.isStatic && (cfg.fixedRoster || cfg.policySweepFragments.isSome))
    ("dynamic membership options (lease, soft deadline, capacity quorum, "
      ++ "carry discount, max learners) need non-fixed rounds: not with a "
      ++ "strict fixed roster, --policy-sweep-fragments, or "
      ++ "--learner-budget-steps")
  match cfg.policySweepFragments with
  | some fragments => cfg.validateSweep fragments
  | none => pure ()
  refuseIf (cfg.sharded && cfg.policySweepFragments.isSome)
    "--shard-count > 1 does not support --policy-sweep-fragments"
  refuseIf (cfg.bcastDeltaFullEvery.any (· < 2))
    "--bcast-delta-full-every must be at least 2"
  refuseIf (cfg.asyncCheckpoint && cfg.policySweepFragments.isNone)
    "--async-checkpoint requires --policy-sweep-fragments"

theorem quorum_pos_of_validate {cfg : Config} (h : cfg.validate = .ok ()) : 0 < cfg.quorum := by
  unfold validate at h
  obtain ⟨-, h⟩ := refuseIf_bind.1 h
  obtain ⟨hq, -⟩ := refuseIf_bind.1 h
  have : ¬ cfg.quorum = 0 := of_decide_eq_false hq
  omega

end Config

end Yeto.Server
