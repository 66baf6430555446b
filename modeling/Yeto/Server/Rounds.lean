/-
The rounds of the scheduler (`syncer/src/server.rs`, `syncer/src/fold.rs`): one
pull of one fragment, the pushes it gathers, the late deltas it takes over from
earlier rounds, and the reduction that closes it.

The gradient of a push is its LENGTH: the checks of a reduction are on lengths,
on who was folded and on the merge weights (rationals here). A folded gradient
is taken out of its push, so its length drops to 0. A round restarts fewer than
`2 ^ 32` times, which `attempt` counts without its width.
-/
import Yeto.Lib.Trace
import Yeto.Server.Config
import Yeto.Server.Registry

namespace Yeto.Server

open Lib

structure Push where
  learnerId : U32
  fragmentId : Nat
  globalStep : Nat
  roundAttempt : Nat
  baseVersion : Nat
  localStep : Nat
  cSteps : Nat
  cTokens : Nat
  /-- Length of the outer gradient; 0 once its buffer was taken. -/
  gradient : Nat
  /-- Number of expert token tags; none when the option is off. -/
  tensorScales : Option Nat
deriving DecidableEq, Repr

/-- `std::mem::take(&mut push.outer_gradient)`. -/
def Push.taken (push : Push) : Push := { push with gradient := 0 }

/-- What the decode of a PUSH on a connection of `member` guarantees. -/
def Push.decodes (cfg : Config) (member : Member) (push : Push) : Bool :=
  decide (push.learnerId = member.learnerId) && decide (0 < push.roundAttempt)
    && decide (0 < push.cSteps) && (cfg.layout[push.fragmentId]?).any fun fragment =>
      decide (push.gradient = fragment.numel) && decide (push.tensorScales =
          if cfg.expertTokenWeights then some fragment.tensorNumels.length
          else none)

/-- A push of a policy sweep names its round and one local step. -/
def Push.sweeps (fragments : Nat) (push : Push) : Bool :=
  decide (0 < fragments ∧ 0 < push.globalStep
    ∧ push.localStep = (push.globalStep + fragments - 1) / fragments ∧ push.cSteps = 1)

/-- Why the scheduler stops with an error. -/
inductive Failure
  /-- A round's base version is not the fragment's version. -/
  | roundBase
  | missingTags
  /-- The fold covered other learners than the responders. -/
  | foldCoverage
  | carriedNeedStreaming
  | carriedFold
  | foldFinish
  | mergeShape
  | unsupportedMode
  | computedMetadata
  | computedBase
  | duplicateComputed
  | notContiguous
  | commitBase
  | busyLost
  | staleUpdate
  | policySweepPush
  | downlink
deriving DecidableEq, Repr

/-- A fold in the order of the learners. -/
structure FragmentFold where
  order : List U32
  folded : Nat
  numel : Nat
  failure : Bool
deriving DecidableEq, Repr

namespace FragmentFold

/-- A fold for a round whose responders are exactly `roster`. -/
def forEqualFullRoster (fragment : FragmentInfo) (roster : List U32) : Option FragmentFold :=
  let order := (roster.insertionSort (· ≤ ·)).dedup
  if order.isEmpty || order.length != roster.length then none
  else if fragment.folds then some ⟨order, 0, fragment.numel, false⟩
  else none

def nextLearner (f : FragmentFold) : Option U32 := if f.failure then none else f.order[f.folded]?

def poison (f : FragmentFold) : FragmentFold := { f with failure := true }

def foldedLearners (f : FragmentFold) : List U32 := f.order.take f.folded

def foldNext (f : FragmentFold) (learnerId : U32) (gradient : Nat) : Option FragmentFold :=
  match f.nextLearner with
  | none => none
  | some expected =>
    if learnerId ≠ expected then none
    else if gradient ≠ f.numel then none
    else some { f with folded := f.folded + 1 }

def finishes (f : FragmentFold) : Bool := !f.failure && decide (f.folded = f.order.length)

end FragmentFold

structure StreamingFold where
  folded : List U32
  numel : Nat
  failure : Bool
deriving DecidableEq, Repr

namespace StreamingFold

def new (fragment : FragmentInfo) : Option StreamingFold :=
  if fragment.folds then some ⟨[], fragment.numel, false⟩ else none

def poison (f : StreamingFold) : StreamingFold := { f with failure := true }

def fold (f : StreamingFold) (learnerId : U32) (gradient : Nat)
    (weight : ℚ) : Option StreamingFold :=
  if f.failure then none
  else if weight < 0 then none
  else if gradient ≠ f.numel then none
  else some { f with folded := f.folded ++ [learnerId] }

/-- Whether `finish` yields the reduced fragment. -/
def finishes (f : StreamingFold) : Bool := !f.failure && !f.folded.isEmpty

end StreamingFold

inductive RoundFold
  | exact (fold : FragmentFold)
  | streaming (fold : StreamingFold)
deriving DecidableEq, Repr

namespace RoundFold

def foldedLearners : RoundFold → List U32
  | .exact f => f.foldedLearners
  | .streaming f => f.folded

def finishes : RoundFold → Bool
  | .exact f => f.finishes
  | .streaming f => f.finishes

def isExact : RoundFold → Bool
  | .exact _ => true
  | .streaming _ => false

end RoundFold

/-- One pull of fragment `p`, at step `t`. -/
structure Round where
  t : Nat
  p : Nat
  baseVersion : Nat
  attempt : Nat
  expectedMembers : List Member
  quorumDeadline : Nat
  graceDeadline : Option Nat
  quorumSize : Nat
  capacityQuorum : Option CapacityQuorum
  softDeadline : Option Nat
  softMin : Nat
  fold : Option RoundFold
  pushes : SortedMap Member Push
  carried : List (Member × Push)
deriving DecidableEq

inductive PushDisposition
  | accepted
  | duplicate
  | unexpectedMember
  | staleBase
  | futureBase
  | outOfRound
deriving DecidableEq, Repr

inductive RoundAction
  | wait
  | complete
  | restart
deriving DecidableEq, Repr

/-- The streaming reduction for a new round attempt; none keeps every
push's gradient until the buffered merge. -/
def roundFold (cfg : Config) (p : Nat) (expected : List Member)
    (quorumSize : Nat) : Option RoundFold :=
  if cfg.deltaCorrection || !cfg.membership.isStatic
      || cfg.expertTokenWeights then none
  else
    match cfg.layout[p]? with
    | none => none
    | some fragment =>
      let exact := if quorumSize ≥ expected.length ∧ cfg.learnerWeight = .equal then
          FragmentFold.forEqualFullRoster fragment (expected.map Member.learnerId)
        else none
      match exact with
      | some fold => some (.exact fold)
      | none =>
        match cfg.weightedFold with
        | .buffered => none
        | .streaming => (StreamingFold.new fragment).map .streaming

namespace Round

def quorumReached (r : Round) : Bool :=
  match r.capacityQuorum with
  | some quorum => quorum.reached r.expectedMembers r.pushes.keys
  | none => decide (r.pushes.size ≥ r.quorumSize)

/-- Drop an expired member from the islands this round still waits for. An
accepted push keeps its slot. -/
def forgetUnanswered (r : Round) (member : Member) : Round :=
  if r.pushes.contains member then r
  else { r with expectedMembers := r.expectedMembers.filter (· ≠ member) }

def action (r : Round) (now : Nat) : RoundAction :=
  -- A round never merges nothing, not even when its expected set is empty.
  if 0 < r.pushes.size ∧ r.pushes.size ≥ r.expectedMembers.length then
    .complete
  else if r.quorumReached then
    if r.graceDeadline.any (fun deadline => decide (now ≥ deadline)) then
      .complete
    else .wait
  else if r.softDeadline.any (fun deadline => decide (now ≥ deadline))
      ∧ r.pushes.size ≥ max r.softMin 1 then .complete
  else if now ≥ r.quorumDeadline then .restart
  else .wait

/-- Some generation of this learner has answered. -/
def answered (r : Round) (learnerId : U32) : Bool :=
  r.pushes.keys.any fun m => decide (m.learnerId = learnerId)

/-- Rebind the unanswered slot of `replacement`'s learner to it, once the
captured generation is gone and its events are handled. -/
def rebind (reg : RegistryState) (replacement : Member) (r : Round) : Round :=
  if r.answered replacement.learnerId then r
  else
    match r.expectedMembers.find? fun m =>
        decide (m.learnerId = replacement.learnerId ∧ m ≠ replacement) with
    | none => r
    | some expected =>
      if reg.groups.contains expected || reg.closing.contains expected then r
      else
        { r with
          expectedMembers := ((r.expectedMembers.replace expected replacement).insertionSort
              (· ≤ ·)) }

/-- The loop of the exact fold: take the pushes in learner order while the
next one is there. `fuel` bounds it by the learners left to fold. -/
def advanceExact : Nat → FragmentFold → SortedMap Member Push → FragmentFold × SortedMap Member Push
  | 0, fold, pushes => (fold, pushes)
  | fuel + 1, fold, pushes =>
    match fold.nextLearner with
    | none => (fold, pushes)
    | some next =>
      match pushes.entries.find? fun e =>
          decide (e.1.learnerId = next) with
      | none => (fold, pushes)
      | some (member, push) =>
        let pushes := pushes.insert member push.taken
        match fold.foldNext next push.gradient with
        | none => (fold.poison, pushes)
        | some fold => advanceExact fuel fold pushes

def advanceFold (cfg : Config) (r : Round) (member : Member) : Round :=
  match r.fold with
  | none => r
  | some (.exact fold) =>
    let (fold, pushes) := advanceExact fold.order.length fold r.pushes
    { r with fold := some (.exact fold), pushes := pushes }
  | some (.streaming fold) =>
    if fold.failure then r
    else
      match r.pushes.find member with
      | none => r
      | some push =>
        let weight := cfg.learnerWeight.function push.cTokens push.cSteps
        let pushes := r.pushes.insert member push.taken
        let fold := (fold.fold member.learnerId push.gradient weight).getD fold.poison
        { r with fold := some (.streaming fold), pushes := pushes }

def isAnsweredBy (push : Push) (r : Round) : Bool :=
  decide (r.t = push.globalStep ∧ r.p = push.fragmentId ∧ r.attempt = push.roundAttempt)

def expects (cfg : Config) (member : Member) (r : Round) : Bool :=
  if cfg.fixedRoster then
    r.expectedMembers.any fun m => decide (m.learnerId = member.learnerId)
  else decide (member ∈ r.expectedMembers)

def hasAnswer (cfg : Config) (member : Member) (r : Round) : Bool :=
  if cfg.fixedRoster then r.answered member.learnerId
  else r.pushes.contains member

def takePush (cfg : Config) (member : Member) (push : Push) (r : Round) : PushDisposition × Round :=
  if !r.expects cfg member then (.unexpectedMember, r)
  else if push.baseVersion > r.baseVersion then (.futureBase, r)
  else if cfg.maxBaseLag.any (fun limit => decide (r.baseVersion - push.baseVersion > limit)) then
    (.staleBase, r)
  else if r.hasAnswer cfg member then (.duplicate, r)
  else
    (.accepted, advanceFold cfg { r with pushes := r.pushes.insert member push } member)

def restart (cfg : Config) (versions : List Nat) (expected : List Member)
    (now : Nat) (r : Round) : Round :=
  { r with
    expectedMembers := expected
    quorumSize := cfg.quorum
    baseVersion := versions.getD r.p 0
    attempt := r.attempt + 1
    pushes := .empty
    fold := roundFold cfg r.p expected cfg.quorum
    softDeadline := cfg.membership.softDeadline.map (now + ·)
    graceDeadline := none
    quorumDeadline := now + cfg.quorumTimeout }

def launch (cfg : Config) (versions : List Nat) (t p : Nat)
    (expected : List Member) (now : Nat) : Round where
  t := t
  p := p
  baseVersion := versions.getD p 0
  attempt := 1
  expectedMembers := expected
  quorumDeadline := now + cfg.quorumTimeout
  graceDeadline := none
  quorumSize := cfg.quorum
  capacityQuorum := cfg.membership.roundQuorum
  softDeadline := cfg.membership.softDeadline.map (now + ·)
  softMin := cfg.membership.softMinArrivals
  fold := roundFold cfg p expected cfg.quorum
  pushes := .empty
  carried := []

end Round

def routePush (cfg : Config) (rounds : List Round) (member : Member)
    (push : Push) : PushDisposition × List Round :=
  (updateFirst (Round.isAnsweredBy push) (Round.takePush cfg member push)
    rounds).getD (.outOfRound, rounds)

abbrev AnchorKey := Member ×ₗ Nat

def anchorKey (member : Member) (p : Nat) : AnchorKey := toLex (member, p)

structure LateCarry where
  limit : Nat
  queued : SortedMap Nat (List (Member × Push))
  /-- Newest base version of a carried delta per connection and fragment. -/
  anchors : SortedMap AnchorKey Nat
  /-- Newest base version of a delta gathered by its own round. -/
  gathered : SortedMap AnchorKey Nat
deriving DecidableEq

inductive CarryOutcome
  | attached (step lag : Nat)
  | queued
  | rejected (disposition : PushDisposition)
deriving DecidableEq, Repr

def attachCarry (limit : Nat) (member : Member) (push : Push) (r : Round) :
    Except PushDisposition Nat × Round :=
  if r.fold.any RoundFold.isExact then (.error .outOfRound, r)
  else if push.baseVersion > r.baseVersion then (.error .futureBase, r)
  else if r.baseVersion - push.baseVersion > limit then
    (.error .staleBase, r)
  else
    (.ok (r.baseVersion - push.baseVersion), { r with carried := r.carried ++ [(member, push)] })

namespace LateCarry

def new (cfg : Config) : Option LateCarry :=
  match cfg.maxBaseLag with
  | some limit =>
    if 0 < limit ∧ cfg.fixedRoster = false then
      some ⟨limit, .empty, .empty, .empty⟩
    else none
  | none => none

/-- The push reuses an anchor this connection already spent. -/
def reusesAnchor (c : LateCarry) (member : Member) (push : Push) : Bool :=
  (c.anchors.find (anchorKey member push.fragmentId)).any
    fun spent => decide (push.baseVersion ≤ spent)

/-- `*entry.or_insert(0) = entry.max(base)`. -/
def raise (m : SortedMap AnchorKey Nat) (key : AnchorKey) (base : Nat) : SortedMap AnchorKey Nat :=
  m.insert key (max ((m.find key).getD 0) base)

def spendAnchor (c : LateCarry) (member : Member) (p base : Nat) : LateCarry :=
  { c with anchors := raise c.anchors (anchorKey member p) base }

def noteGathered (c : LateCarry) (member : Member) (p base : Nat) : LateCarry :=
  { c with gathered := raise c.gathered (anchorKey member p) base }

/-- A restarted round drops a gathered push, and its anchor is free
again. -/
def releaseAnchor (c : LateCarry) (e : Member × Push) : LateCarry :=
  let key := anchorKey e.1 e.2.fragmentId
  if c.gathered.find key = some e.2.baseVersion then
    { c with
      gathered := if e.2.baseVersion = 0 then c.gathered.erase key
        else c.gathered.insert key (e.2.baseVersion - 1) }
  else c

/-- Route a push that no open round takes. `nextT` is the next step to
launch, `current` the fragment's committed version. -/
def carry (c : LateCarry) (rounds : List Round) (member : Member)
    (push : Push) (nextT current : Nat) : CarryOutcome × LateCarry × List Round :=
  let p := push.fragmentId
  -- A push for a round still open under another attempt, or for a round
  -- never launched, is not late.
  if push.globalStep ≥ nextT ∨ rounds.any (fun r => decide (r.t = push.globalStep ∧ r.p = p)) then
    (.rejected .outOfRound, c, rounds)
  else if push.baseVersion > current then (.rejected .futureBase, c, rounds)
  else if (c.gathered.find (anchorKey member p)).any
      (fun taken => decide (push.baseVersion ≤ taken)) then
    (.rejected .duplicate, c, rounds)
  else if current - push.baseVersion > c.limit then
    (.rejected .staleBase, c, rounds)
  else
    match updateFirst (fun r => decide (r.p = p ∧ r.t > push.globalStep)) (fun r =>
          let (result, r') := attachCarry c.limit member push r
          ((result, r.t), r')) rounds with
    | some ((.ok lag, step), rounds) => (.attached step lag, c, rounds)
    | some ((.error disposition, _), rounds) => (.rejected disposition, c, rounds)
    | none =>
      let waiting := (c.queued.find p).getD [] ++ [(member, push)]
      (.queued, { c with queued := c.queued.insert p waiting }, rounds)

def attachQueued (c : LateCarry) (r : Round) : LateCarry × Round :=
  ({ c with queued := c.queued.erase r.p }, ((c.queued.find r.p).getD []).foldl
      (fun r e => (attachCarry c.limit e.1 e.2 r).2) r)

end LateCarry

structure PreparedMerge where
  fid : Nat
  baseVersion : Nat
deriving DecidableEq, Repr

/-- The checks of `prepare_merge_scaled`: every gradient has the length of
its fragment, every push has its tags, and the merge mode is known. -/
def prepareMergeScaled (cfg : Config) (r : Round)
    (pushes : List (Member × Push)) : Except Failure PreparedMerge :=
  match cfg.layout[r.p]? with
  | none => .error .mergeShape
  | some fragment =>
    if pushes.any fun e => decide (e.2.gradient ≠ fragment.numel) then
      .error .mergeShape
    else if cfg.expertTokenWeights ∧ pushes.any (fun e =>
        decide (e.2.tensorScales ≠ some fragment.tensorNumels.length)) then
      .error .mergeShape
    else if fragment.tensorNumels ≠ [] ∧ fragment.mergeMode = .unknown then
      .error .unsupportedMode
    else .ok ⟨r.p, r.baseVersion⟩

def foldCarried (cfg : Config) (r : Round) (fold : StreamingFold) : Option StreamingFold :=
  r.carried.foldlM (fun fold e =>
    let weight := cfg.learnerWeight.function e.2.cTokens e.2.cSteps
    let discount := cfg.membership.carryDiscount (r.baseVersion - e.2.baseVersion)
    fold.fold e.1.learnerId e.2.gradient (weight * discount)) fold

/-- Fix the learner order and prepare the merge. The round comes back
without its fold. -/
def prepareRoundCompute (cfg : Config) (versions : List Nat) (r : Round) :
    Except Failure (Round × PreparedMerge) :=
  if versions[r.p]? ≠ some r.baseVersion then .error .roundBase
  else
    -- Carried late deltas follow the round's own pushes.
    let ordered := r.pushes.entries ++ r.carried
    if cfg.expertTokenWeights ∧ ordered.any (fun e => e.2.tensorScales.isNone)
    then .error .missingTags
    else
      match r.fold with
      | none =>
        match prepareMergeScaled cfg r ordered with
        | .error e => .error e
        | .ok merge => .ok (r, merge)
      | some fold =>
        -- Every responder must have been folded exactly once.
        if fold.foldedLearners.insertionSort (· ≤ ·)
            ≠ r.pushes.entries.map (fun e => e.1.learnerId) then
          .error .foldCoverage
        else
          let folded : Except Failure RoundFold := if r.carried = [] then .ok fold
            else
              match fold with
              | .exact _ => .error .carriedNeedStreaming
              | .streaming f =>
                match foldCarried cfg r f with
                | none => .error .carriedFold
                | some f => .ok (.streaming f)
          match folded with
          | .error e => .error e
          | .ok fold =>
            if fold.finishes then
              let carried := r.carried.map fun e => (e.1, e.2.taken)
              .ok ({ r with fold := none, carried := carried }, ⟨r.p, r.baseVersion⟩)
            else .error .foldFinish

end Yeto.Server
