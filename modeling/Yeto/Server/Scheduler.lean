/-
The training scheduler (`scheduler` in `syncer/src/server.rs`) with the tasks
around it: connection tasks that register and unregister, the forwarders, the
checkpoint writer and the merge workers.

Between two awaits of its loop, and between two times it takes the registry's
lock, any other task may run. The scheduler is therefore a list of the work
still ahead of it (`todo`): an operation does the first item, under one look at
the registry, and may put new items in its place.

Clock readings, the outcome of every send, the merged values and the answers of
the learners are inputs of an operation. No operation reads `log`.
-/
import Yeto.Lib.System
import Yeto.Server.CatchUps
import Yeto.Server.Recovery
import Yeto.Server.Rounds

namespace Yeto.Server

open Lib Downlink

inductive Room
  | now
  | full
  | closed
deriving DecidableEq, Repr

/-- A merge that finished computing; `values` are the parameters it
commits. -/
structure ComputedRound where
  round : Round
  merge : PreparedMerge
  values : List F32
deriving DecidableEq

structure PendingPublish where
  t : Nat
  p : Nat
  written : Bool
deriving DecidableEq, Repr

structure Pipeline where
  nextT : Nat
  nextCommitT : Nat
  inflight : List Round
  computing : List (Round × PreparedMerge)
  ready : SortedMap Nat ComputedRound
  busyFragments : List Nat
  publishing : Option PendingPublish
  lateCarry : Option LateCarry
deriving DecidableEq

structure Feeds where
  catchUps : CatchUps
  resends : BulkResends
  /-- Frames of dropped forwarders that are still being sent. -/
  orphans : List (Group × Frame)
deriving DecidableEq

inductive LogEntry
  | registered (group : Group) (admission : Admission) (versions : List Nat)
  | expired (member : Member)
  | began
  /-- A round attempt was launched, expecting these connections. -/
  | launched (t p attempt : Nat) (groups : List Group)
  | accepted (member : Member) (push : Push)
  /-- A late push was added to an open round, or queued for the next. -/
  | carried (member : Member) (push : Push)
  | merged (round : Round)
  | durable (t : Nat)
  | published (frame : Frame)
  | sent (group : Group) (frame : Frame)
  | told (group : Group) (msg : RecoveryMsg)
  | restored (group : Group) (held : Option (List Nat))
  /-- The catch-up floor of a re-joined island was recorded. -/
  | floor (group : Group) (versions : List Nat)
deriving DecidableEq

inductive Work
  | init
  | top
  | tick (expired : List Member)
  | commit
  /-- The next commit, once the pending round is durable. -/
  | apply
  | launch
  | arm
  | act (i now : Nat) (submitted : Bool)
  | catchUp
  /-- One fragment of a catch-up, once the pending round is durable. -/
  | sendNext (group : Group) (p : Nat)
  | dropResends
  | takeDue
  | loopEnd (submitted : Bool)
  | wait
  /-- A recovery, once the pending round is durable. -/
  | begin (group : Group)
  /-- A background catch-up, once the pending round is durable. -/
  | start (group : Group) (tail : CatchUpTail)
  /-- A replay, once the pending round is durable. -/
  | restored (member : Member) (held : Option (List Nat))
  | replay (group : Group) (p : Nat)
  | gone (member : Member)
  | replace (member : Member)
  | record (group : Group) (floor : List Nat)
  | repull (group : Group)
  | rebind (group : Group)
  | promote (group : Group) (replayed : Nat)
  | deliver (member : Member) (msg : RecoveryMsg)
deriving DecidableEq

/-- Work that waits for the pending publication first. -/
def Work.settles : Work → Bool
  | .apply | .sendNext .. | .begin _ | .start .. | .restored .. | .wait => true
  | _ => false

structure Syncer where
  reg : RegistryState
  nextConn : Nat
  /-- Registered connections whose HELLO event is not handled yet. -/
  hellos : List Group
  st : GlobalState
  pipe : Pipeline
  feeds : Feeds
  recovery : PeerRecovery
  todo : List Work
  log : List LogEntry

inductive Stop
  | disabled
  | failed (failure : Failure)
deriving DecidableEq, Repr

/-- The state before the first learner connects: version 0, or a
checkpoint, which `load_checkpoint` checks to be a contiguous cut. -/
structure Start (cfg : Config) where
  globalStep : Nat
  params : List (List F32)
  membership : Membership
  membershipRecord : Option (List UInt8)
  /-- A checkpoint is of a step of this shard. -/
  owned : globalStep = 0 ∨ cfg.schedule.ownsStep globalStep = true
  shapes : params.map List.length = cfg.layout.map FragmentInfo.numel
  configured : membership.cfg = cfg.membership
  /-- Nobody is connected yet; a record only holds retired
  generations. -/
  nobody : membership.live = .empty ∧ membership.expired = .empty

/-- The version of each fragment at `globalStep`: 0 where another shard
owns it. -/
def startVersions (cfg : Config) (globalStep : Nat) : List Nat :=
  (List.range cfg.layout.length).map fun p =>
    if cfg.schedule.owns p then cfg.schedule.expectedVersion p globalStep
    else 0

namespace Syncer

def new (cfg : Config) (i : Start cfg) : Syncer where
  reg := .new i.membership i.membershipRecord
  nextConn := 0
  hellos := []
  st :=
    { versions := startVersions cfg i.globalStep
      params := i.params
      globalStep := i.globalStep
      downlink := cfg.bcastDeltaFullEvery.map fun fullEvery =>
        ⟨fullEvery, List.replicate cfg.layout.length none⟩ }
  pipe :=
    { nextT := cfg.schedule.stepAfter i.globalStep
      nextCommitT := cfg.schedule.stepAfter i.globalStep
      inflight := []
      computing := []
      ready := .empty
      busyFragments := []
      publishing := none
      lateCarry := LateCarry.new cfg }
  feeds := ⟨[], [], []⟩
  recovery := .new
  todo := [.init]
  log := if i.globalStep = 0 then [] else [.durable i.globalStep]

/-- The inputs of one turn of the scheduler: clock readings, and what the
queues of the learners take. -/
structure Inputs where
  now : Nat := 0
  launchOpen : Bool := true
  /-- The grace window of the round at a step. -/
  grace : Nat → Nat := fun _ => 0
  /-- Room for a fragment in the queues of a connection. -/
  room : Nat → Group → Room := fun _ _ => .now
  /-- Queues that could take the largest broadcast. -/
  settled : Group → Bool := fun _ => true
  /-- Islands that keep their own version-0 weights. -/
  confirmed : Member → Bool := fun _ => false

variable (n : Numerics) (cfg : Config) (s : Syncer)

def next (works : List Work) : Syncer := { s with todo := works ++ s.todo.tail }

def note (es : List LogEntry) : Syncer := { s with log := s.log ++ es }

def setPipe (pipe : Pipeline) : Syncer := { s with pipe }

def setFeeds (feeds : Feeds) : Syncer := { s with feeds }

/-- The current value of every owned fragment is owed, except at the
terminal cut. -/
def catchUpFragments : List Nat := if s.st.globalStep < cfg.lastStep then cfg.schedule.owned else []

/-- A BCAST outside publication: on a downlink session always a FULL. -/
def resendFrame (p : Nat) : Frame :=
  let version := s.st.version p
  { p, version
    body := match s.st.downlink with
      | some a => .encoded (a.resend n (word32 p) (word64 version) (s.st.values p))
      | none => .plain (s.st.values p) }

/-- Encode the version just committed, advancing the shared anchor. The
last version of a fragment is also its FINAL version and goes out FULL. -/
def publish (p : Nat) : Except Stop (Frame × GlobalState) :=
  let version := s.st.version p
  match s.st.downlink with
  | none => .ok (⟨p, version, .plain (s.st.values p)⟩, s.st)
  | some a =>
    let encoded := if cfg.schedule.nextMergeOfFragment version > cfg.totalSteps then
        .ok (a.publishFull n (word32 p) (word64 version) (s.st.values p))
      else a.publish n (word32 p) (word64 version) (s.st.values p)
    match encoded with
    | .error _ => .error (.failed .downlink)
    | .ok (bcast, a) => .ok (⟨p, version, .encoded bcast⟩, { s.st with downlink := some a })

def takesInline (room : Group → Room) (g : Group) : Bool :=
  match room g with
  | .now => true
  | .full => cfg.inlineBroadcast
  | .closed => false

/-- The learner's queues cannot take a broadcast now, and the scheduler
does not wait. -/
def spills (room : Group → Room) (g : Group) : Bool :=
  decide (room g = .full) && !cfg.inlineBroadcast

/-- The FULL a forwarder sends of the version of `p`, on a downlink
session. -/
def forwardedFull (st : GlobalState) (p : Nat) : Option EncodedBcast := st.downlink.map fun a =>
    a.resend n (word32 p) (word64 (st.version p)) (st.values p)

def inlineGroups : List Group := s.reg.currentGroups.filter fun g => !s.feeds.resends.has g.member

/-- BCAST the newly committed version of `p`: to a learner's forwarder,
where it has one; otherwise inline, or to a new forwarder. -/
def broadcastRound (p : Nat) (room : Group → Room) : Except Stop Syncer :=
  match s.publish n cfg p with
  | .error e => .error e
  | .ok (frame, st) =>
    let full := forwardedFull n st p
    let offered := s.feeds.resends.map fun e =>
      { e with conn := e.conn.offerPublished p (st.version p) (st.values p) full }
    let spilled := (s.inlineGroups.filter (spills cfg room)).map (BulkResends.spill st p full)
    let sent := (s.inlineGroups.filter (takesInline cfg room)).map fun g => LogEntry.sent g frame
    .ok { s with
      st
      feeds := { s.feeds with resends := offered ++ spilled }
      log := s.log ++ .published frame :: sent }

/-- Expose a committed round. The terminal round is delivered by FINAL. -/
def publishRound (t p : Nat) (room : Group → Room) : Except Stop Syncer :=
  if t < cfg.lastStep then s.broadcastRound n cfg p room else .ok s

def releaseBusy (p : Nat) : Except Stop Syncer :=
  if p ∈ s.pipe.busyFragments then
    .ok (s.setPipe { s.pipe with
      busyFragments := s.pipe.busyFragments.erase p })
  else .error (.failed .busyLost)

def exposeRound (t p : Nat) (room : Group → Room) : Except Stop Syncer :=
  match s.publishRound n cfg t p room with
  | .error e => .error e
  | .ok s => s.releaseBusy p

def exactFrame (frame : Frame) : ExactFrame :=
  match frame.body with
  | .plain values => ⟨frame.p, frame.version, values, none⟩
  | .encoded bcast => ⟨frame.p, frame.version, bcast.values, some (.encoded bcast.head)⟩

/-- One fragment of the initial cut: a learner with a forwarder gets it in
order behind the rest of its cut. -/
def initialFragment (groups : List Group) (room : Nat → Group → Room)
    (s : Syncer) (p : Nat) : Syncer :=
  let frame := s.resendFrame n p
  let queued := s.feeds.resends.map fun e =>
    { e with conn := e.conn.queueExact (exactFrame frame) }
  let inline := groups.filter fun g => !s.feeds.resends.has g.member
  let spilled := (inline.filter (spills cfg (room p))).map
    (BulkResends.spillInitial s.st (exactFrame frame))
  let sent := (inline.filter (takesInline cfg (room p))).map fun g => LogEntry.sent g frame
  { s with
    feeds := { s.feeds with resends := queued ++ spilled }
    log := s.log ++ sent }

/-- What the log says of the start: version 0 is persisted before its first
BCAST. -/
def openingNotes : List LogEntry :=
  if (cfg.checkpointBeforeBroadcast || cfg.policySweepFragments.isSome)
      && cfg.checkpointPath && decide (s.st.globalStep = 0) then
    [.durable 0, .began]
  else [.began]

/-- Send everyone the initial cut; an island that holds version 0 only
gets a confirmation. A terminal cut goes straight to FINAL. -/
def broadcastInitialCut (i : Inputs) : Syncer :=
  if s.st.globalStep < cfg.lastStep then
    let groups := s.reg.currentGroups.filter fun g =>
      !(decide (s.st.globalStep = 0) && i.confirmed g.member)
    cfg.schedule.owned.foldl (initialFragment n cfg groups i.room) s
  else s

/-- Enough learners are connected: send the initial cut and start the
loop. -/
def beginTraining (i : Inputs) : Except Stop Syncer :=
  if s.reg.current.size < cfg.startupMembers then .error .disabled
  else
    let s := s.note (s.openingNotes cfg)
    .ok ((s.broadcastInitialCut n cfg i).next [.top])

/-- Rounds are to be launched or under way. -/
def running : Bool := decide (s.pipe.nextT ≤ cfg.lastStep) || !s.pipe.inflight.isEmpty
    || !s.pipe.computing.isEmpty || decide (0 < s.pipe.ready.size)
    || s.pipe.publishing.isSome

/-- The head of the loop: leases expire, and the rounds stop waiting for
their islands. -/
def loopHead (now : Nat) : Syncer :=
  if s.running cfg then
    let (gone, reg) := s.reg.expireLeases now
    let members := gone.map Prod.fst
    let inflight := s.pipe.inflight.map fun r =>
      members.foldl Round.forgetUnanswered r
    { s with
      reg
      pipe := { s.pipe with inflight }
      todo := .tick members :: .commit :: s.todo.tail
      log := s.log ++ members.map .expired }
  else s.next []

def recoveryCandidates : List Candidate := s.reg.current.values.map fun m =>
    ⟨m, s.pipe.inflight.countP fun r =>
      decide (m ∈ r.expectedMembers) && !r.pushes.contains m⟩

def sendRecovery (out : List (Member × RecoveryMsg) × PeerRecovery) (works : List Work) : Syncer :=
  let s := { s with recovery := out.2 }
  s.next (out.1.map (fun e => Work.deliver e.1 e.2) ++ works)

def allGone (candidates : List Candidate) (now : Nat) (r : PeerRecovery)
    (members : List Member) : List (Member × RecoveryMsg) × PeerRecovery :=
  members.foldl (fun acc m =>
    let (out, r) := acc.2.onGone cfg m candidates now
    (acc.1 ++ out, r)) ([], r)

def recoveryTick (expired : List Member) (now : Nat) : Syncer :=
  if s.recovery.pending.size = 0 then s.next []
  else
    let candidates := s.recoveryCandidates
    let (gone, r) := allGone cfg candidates now s.recovery expired
    let (late, r) := r.onTick cfg candidates now
    s.sendRecovery (gone ++ late, r) []

def deliver (member : Member) (msg : RecoveryMsg) (room : Group → Room) : Syncer :=
  match s.reg.groups.find member with
  | none => s.next []
  | some g =>
    if room g = .closed then s.next []
    else (s.note [.told g msg]).next []

/-- The head of the commit loop. -/
def commit : Syncer :=
  if s.pipe.ready.contains s.pipe.nextCommitT then s.next [.apply, .commit]
  else s.next [.launch]

/-- `apply_round_commit`: nothing leaves the process here. -/
def applyRoundCommit (c : ComputedRound) : Except Stop Syncer :=
  let r := c.round
  if r.t ≠ cfg.schedule.stepAfter s.st.globalStep then
    .error (.failed .notContiguous)
  else if s.st.versions[r.p]? ≠ some r.baseVersion
      ∨ s.st.versions[c.merge.fid]? ≠ some c.merge.baseVersion then
    .error (.failed .commitBase)
  else
    .ok { s with
      st := { s.st with
        versions := s.st.versions.set r.p r.t
        params := s.st.params.set c.merge.fid c.values
        globalStep := r.t }
      pipe := { s.pipe with
        ready := s.pipe.ready.erase s.pipe.nextCommitT
        nextCommitT := cfg.schedule.stepAfter s.pipe.nextCommitT }
      log := s.log ++ [.merged r] }

/-- Commit the next step. With `--async-checkpoint` its publication waits
for the write. -/
def apply (room : Nat → Group → Room) : Except Stop Syncer :=
  if s.pipe.publishing.isSome then .error .disabled
  else
    match s.pipe.ready.find s.pipe.nextCommitT with
    | none => .error .disabled
    | some c =>
      let (t, p) := (c.round.t, c.round.p)
      match s.applyRoundCommit cfg c with
      | .error e => .error e
      | .ok s =>
        let s := s.next []
        if cfg.persistBeforeBroadcast t then
          if cfg.asyncCheckpoint then
            .ok (s.setPipe { s.pipe with
              publishing := some ⟨t, p, false⟩ })
          else (s.note [.durable t]).exposeRound n cfg t p (room p)
        else s.exposeRound n cfg t p (room p)

def settle (room : Group → Room) : Except Stop Syncer :=
  match s.pipe.publishing, s.todo with
  | some ⟨t, p, true⟩, w :: todo =>
    if w.settles then
      let s := { s with
        pipe := { s.pipe with publishing := none }
        todo := (if w = Work.wait then .top else w) :: todo }
      s.exposeRound n cfg t p room
    else .error .disabled
  | _, _ => .error .disabled

/-- Who a round is launched for. -/
def launchGroups : List Group := s.reg.currentGroups.filter fun g =>
    !s.feeds.catchUps.holds g.member && !s.feeds.resends.holds g.member

/-- The launched round with the late pushes queued for its fragment. -/
def attachLate (c : Option LateCarry) (r : Round) : Option LateCarry × Round :=
  match c with
  | none => (none, r)
  | some c => ((c.attachQueued r).1, (c.attachQueued r).2)

def launch (i : Inputs) : Syncer :=
  let pipe := s.pipe
  let t := pipe.nextT
  let p := cfg.schedule.fragmentForStep t
  let groups := s.launchGroups
  if pipe.inflight.length + pipe.computing.length + pipe.ready.size < cfg.depth
      ∧ t ≤ cfg.lastStep ∧ i.launchOpen = true ∧ p ∉ pipe.busyFragments
      ∧ groups ≠ [] ∧ ¬ (cfg.fixedRoster = true ∧ groups.length < cfg.quorum)
  then
    let round := Round.launch cfg s.st.versions t p (groups.map Group.member) i.now
    let (lateCarry, round) := attachLate pipe.lateCarry round
    { s with
      pipe := { pipe with
        nextT := cfg.schedule.stepAfter t
        busyFragments := p :: pipe.busyFragments
        inflight := pipe.inflight ++ [round]
        lateCarry }
      log := s.log ++ [.launched t p 1 groups] }
  else s.next [.arm]

/-- Arm the grace window of a round that reached quorum. The soft deadline
bounds it. -/
def armRound (now grace : Nat) (r : Round) : Round :=
  if r.graceDeadline.isNone && r.quorumReached then
    let grace := match r.softDeadline with
      | some soft => min grace (soft - now)
      | none => grace
    { r with graceDeadline := some (now + grace) }
  else r

def arm (i : Inputs) : Syncer :=
  let inflight := s.pipe.inflight.map fun r => armRound i.now (i.grace r.t) r
  (s.setPipe { s.pipe with inflight }).next [.act 0 i.now false]

def retryDelay : Nat := 1000000000

/-- The quorum timeout of round `r`, at index `k`. A fixed roster keeps its
attempt; otherwise a new attempt captures the roster of this moment. -/
def restartRound (k : Nat) (r : Round) (clock : Nat) : Syncer :=
  let groups := s.reg.currentGroups
  let put (r : Round) : Pipeline := { s.pipe with inflight := s.pipe.inflight.set k r }
  if cfg.fixedRoster then
    s.setPipe (put { r with quorumDeadline := clock + cfg.quorumTimeout })
  else if groups.length < cfg.membership.minLaunchMembers cfg.quorum then
    s.setPipe (put { r with quorumDeadline := clock + retryDelay })
  else
    let lateCarry := s.pipe.lateCarry.map fun c =>
      r.pushes.entries.foldl LateCarry.releaseAnchor c
    let restarted := r.restart cfg s.st.versions (groups.map Group.member) clock
    { s with
      pipe := { put restarted with lateCarry }
      log := s.log ++ [.launched r.t r.p restarted.attempt groups] }

def act (k now : Nat) (submitted : Bool) (clock : Nat) : Except Stop Syncer :=
  match s.pipe.inflight[k]? with
  | none => .ok (s.next [.catchUp, .dropResends, .takeDue, .loopEnd submitted])
  | some r =>
    match r.action now with
    | .wait => .ok (s.next [.act (k + 1) now submitted])
    | .restart => .ok ((s.restartRound cfg k r clock).next [.act (k + 1) now submitted])
    | .complete =>
      match prepareRoundCompute cfg s.st.versions r with
      | .error e => .error (.failed e)
      | .ok prepared =>
        let s := s.setPipe { s.pipe with
          inflight := s.pipe.inflight.eraseIdx k
          computing := s.pipe.computing ++ [prepared] }
        .ok (s.next [.act k now true])

/-- A merge worker is done. A merge that is not finite, or not of the
fragment's shape, stops the run and is not one. -/
def computed (i : Nat) (values : List F32) : Except Stop Syncer :=
  match s.pipe.computing[i]? with
  | none => .error .disabled
  | some (round, merge) =>
    if merge.fid ≠ round.p ∨ merge.baseVersion ≠ round.baseVersion then
      .error (.failed .computedMetadata)
    else if s.st.versions[round.p]? ≠ some round.baseVersion then
      .error (.failed .computedBase)
    else if s.pipe.ready.contains round.t then
      .error (.failed .duplicateComputed)
    else if values.length ≠ (s.st.values round.p).length
        ∨ values.all isFinite = false then .error .disabled
    else
      let s := s.setPipe { s.pipe with
        computing := s.pipe.computing.eraseIdx i
        ready := s.pipe.ready.insert round.t ⟨round, merge, values⟩ }
      .ok (s.next [.top])

/-- Rebind the unanswered slots of existing rounds to `member`, while it is
the generation on the roster. -/
def rebindRounds (member : Member) : Syncer :=
  if s.reg.isCurrentMember member then
    s.setPipe { s.pipe with
      inflight := s.pipe.inflight.map (Round.rebind s.reg member) }
  else s

/-- A fixed roster replays the pulls and rebinds nothing. -/
def repull (member : Member) : Syncer := if cfg.fixedRoster then s else s.rebindRounds member

/-- A push goes to its round, or is late. -/
def route (member : Member) (push : Push) : Except Stop Syncer :=
  match routePush cfg s.pipe.inflight member push with
  | (.accepted, inflight) =>
    let lateCarry := s.pipe.lateCarry.map fun c =>
      c.noteGathered member push.fragmentId push.baseVersion
    .ok { s with
      pipe := { s.pipe with inflight, lateCarry }
      log := s.log ++ [.accepted member push] }
  | (.staleBase, _) =>
    -- A fixed roster fails on a stale base; an island pool refuses it.
    if cfg.strictExact && !cfg.dynamic then .error (.failed .staleUpdate)
    else .ok s
  | _ => .ok s

def carryLate (c : LateCarry) (member : Member) (push : Push) : Syncer :=
  let p := push.fragmentId
  match c.carry s.pipe.inflight member push s.pipe.nextT (s.st.version p) with
  | (.rejected _, _, _) => s
  | (_, c, inflight) =>
    { s with
      pipe := { s.pipe with
        inflight
        lateCarry := some (c.spendAnchor member p push.baseVersion) }
      log := s.log ++ [.carried member push] }

def takePush (member : Member) (push : Push) : Except Stop Syncer :=
  match s.pipe.lateCarry with
  | none => s.route cfg member push
  | some c =>
    if c.reusesAnchor member push then .ok s
    else if s.pipe.inflight.any (Round.isAnsweredBy push) then
      s.route cfg member push
    else .ok (s.carryLate c member push)

def renew (member : Member) (now : Nat) : Syncer := { s with reg :=
  { s.reg with
    membership := (s.reg.membership.renew member now).2 } }

def onPush (member : Member) (push : Push) (now : Nat) : Except Stop Syncer :=
  if !push.decodes cfg member then .error .disabled
  else if cfg.policySweepFragments.any fun fragments => !push.sweeps fragments
  then .error (.failed .policySweepPush)
  else
    let s := s.renew member now
    match s.reg.membership.checkPushBase member push.fragmentId push.baseVersion with
    | .error _ => .ok s
    | .ok () => s.takePush cfg member push

/-- What is left to do for an island caught up. -/
def finishCatchUp (group : Group) (tail : CatchUpTail) (floor : List Nat) : List Work :=
  (if tail.rejoin then [.record group floor, .repull group] else [])
    ++ if tail.rebind then [.rebind group] else []

def catchUp : Syncer :=
  let queue := s.feeds.catchUps.filter fun c => s.reg.isCurrentMember c.member
  let put (queue : CatchUps) : Syncer := s.setFeeds { s.feeds with catchUps := queue }
  match CatchUps.nextStep queue with
  | none => (put queue).next []
  | some (.send group p, queue) => (put queue).next [.sendNext group p]
  | some (.done c, queue) => (put queue).next (finishCatchUp c.group c.tail s.st.versions)

def sendNext (group : Group) (p : Nat) (room : Group → Room) : Except Stop Syncer :=
  if s.pipe.publishing.isSome then .error .disabled
  else if room group = .closed then
    let s := s.setFeeds { s.feeds with
      catchUps := s.feeds.catchUps.abandon group.member }
    .ok (s.next [])
  else .ok ((s.note [.sent group (s.resendFrame n p)]).next [])

/-- Stop the resends whose learner is no longer the generation they were
started for. A fragment being sent still goes out. -/
def dropResends : Syncer :=
  let dropped := s.feeds.resends.filter fun e => !BulkResends.kept s.reg e
  let orphans := dropped.filterMap fun e =>
    e.conn.inFlight.map fun frame => (e.group, frame)
  let s := s.setFeeds { s.feeds with
    resends := s.feeds.resends.filter (BulkResends.kept s.reg)
    orphans := s.feeds.orphans ++ orphans }
  s.next []

def tailWork : DueTail → List Work
  | .catchUp group tail floor => finishCatchUp group tail floor
  | .recovery group replayed => [.promote group replayed]

def takeDue (settled : Group → Bool) : Syncer :=
  let (due, resends) := s.feeds.resends.takeDue s.st settled
  (s.setFeeds { s.feeds with resends }).next (due.flatMap tailWork)

def start (group : Group) (tail : CatchUpTail) : Except Stop Syncer :=
  if s.pipe.publishing.isSome then .error .disabled
  else
    let resends := s.feeds.resends.start s.st group (s.catchUpFragments cfg) (.catchUp tail)
    .ok ((s.setFeeds { s.feeds with resends }).next [])

/-- Catch a current generation up: inline, or in the background once the
pending round is durable. -/
def owe (group : Group) (tail : CatchUpTail) (works : List Work) : Syncer :=
  if cfg.inlineResend then
    let catchUps := s.feeds.catchUps.enqueue group (s.catchUpFragments cfg) tail
    (s.setFeeds { s.feeds with catchUps }).next works
  else s.next (.start group tail :: works)

def awaits (member : Member) : Bool := (s.reg.membership.live.find member.learnerId).any fun l =>
    decide (l.generation = member.generation) && l.awaitingCatchUp

def record (group : Group) (floor : List Nat) : Syncer :=
  { s with
    reg := { s.reg with
      membership := s.reg.membership.recordCatchUp group.member floor }
    log := s.log ++ if s.awaits group.member then [.floor group floor] else [] }

/-- A recovering island's HELLO: read the clock of durable rounds. -/
def beginRecovery (group : Group) (now : Nat) : Except Stop Syncer :=
  if s.pipe.publishing.isSome then .error .disabled
  else
    .ok (s.sendRecovery (s.recovery.begin cfg group.member s.st.globalStep
      s.st.versions s.recoveryCandidates now) [])

def restored (member : Member) (held : Option (List Nat)) : Except Stop Syncer :=
  if s.pipe.publishing.isSome then .error .disabled
  else
    match s.reg.groups.find member with
    | none => .ok (s.next [])
    | some group =>
      match s.recovery.onRestored member held s.st.versions with
      | none => .ok (s.next [])
      | some replay =>
        let s := s.note [.restored group held]
        if cfg.inlineResend then
          .ok (s.next (replay.map (Work.replay group) ++ [.promote group replay.length]))
        else
          let resends := s.feeds.resends.start s.st group replay (.recovery replay.length)
          .ok ((s.setFeeds { s.feeds with resends }).next [])

def replay (group : Group) (p : Nat) (room : Group → Room) : Syncer :=
  if room group = .closed then s.next []
  else (s.note [.sent group (s.resendFrame n p)]).next []

def promoteIsland (group : Group) : Bool × Syncer :=
  match s.reg.promoteRecovered group.member with
  | (true, reg) =>
    let s := { s with reg }
    (true, s.record group s.st.versions)
  | (false, _) => (false, s)

def promote (group : Group) (replayed : Nat) : Syncer :=
  let (promoted, s) := s.promoteIsland group
  let (done, recovery) := s.recovery.finish group.member s.st.globalStep s.st.versions replayed
  let s := { s with recovery }
  match promoted, done with
  | true, some msg => s.next [.deliver group.member msg, .repull group]
  | _, _ => s.next []

def gone (member : Member) (now : Nat) : Syncer :=
  s.sendRecovery (s.recovery.onGone cfg member s.recoveryCandidates now) []

/-- Catch the replacement of a closed connection up, to rebind its slots. -/
def replace (member : Member) : Syncer :=
  let replacement := (s.reg.current.find member.learnerId).filter (· ≠ member)
  match replacement.bind s.reg.groups.find with
  | some group => if cfg.fixedRoster then s.next [] else s.owe cfg group .REBIND []
  | none => s.next []

/-- What wakes the scheduler. -/
inductive Wake
  | computed (i : Nat) (values : List F32)
  | push (member : Member) (push : Push) (now : Nat)
  | heartbeat (member : Member) (now : Nat)
  | hello (group : Group)
  | snapshotReady (sender : Member) (ready : SnapshotReady) (now : Nat)
  | recoveryFailed (sender : Member) (now : Nat)
  | restored (member : Member) (held : Option (List Nat))
  | disconnected (member : Member)

def handled (group : Group) : Syncer := { s with hellos := s.hellos.erase group }

def onHello (group : Group) : Syncer :=
  if s.reg.isRecovering group.member then s.next [.begin group, .top]
  else if s.reg.isCurrentMember group.member then
    s.owe cfg group .REJOIN [.top]
  else s.next [.top]

def wake : Wake → Except Stop Syncer
  | .computed i values => s.computed i values
  | .push member push now => (s.next [.top]).onPush cfg member push now
  | .heartbeat member now => .ok ((s.next [.top]).renew member now)
  | .hello group =>
    if group ∈ s.hellos then .ok ((s.handled group).onHello cfg group)
    else .error .disabled
  | .snapshotReady sender ready now =>
    .ok (s.sendRecovery (s.recovery.onSnapshotReady cfg sender ready
      s.recoveryCandidates now) [.top])
  | .recoveryFailed sender now =>
    .ok (s.sendRecovery (s.recovery.onFailed cfg sender s.recoveryCandidates now) [.top])
  | .restored member held =>
    if s.recovery.isPending member then
      .ok (s.next [.restored member held, .top])
    else .ok (s.next [.top])
  | .disconnected member =>
    if s.reg.closing.contains member then
      let s := { s with reg := s.reg.disconnectHandled member }
      .ok (s.next [.gone member, .replace member, .top])
    else .error .disabled

/-- The island is put on the roster at once, with the degraded source. -/
def admitRecovering (group : Group) : Syncer :=
  let (promoted, reg) := s.reg.promoteRecovered group.member
  if promoted then
    let zeros := s.st.versions.map fun _ => 0
    { s with reg, todo := .deliver group.member (.source .degraded zeros)
      :: .deliver group.member (.done 0 0 0 zeros) :: s.todo }
  else s

def wakeInit : Wake → Except Stop Syncer
  | .hello group =>
    if group ∈ s.hellos then .ok ((s.handled group).admitRecovering group)
    else .error .disabled
  | .heartbeat member now => .ok (s.renew member now)
  | .disconnected member =>
    if s.reg.closing.contains member then
      .ok { s with reg := s.reg.disconnectHandled member }
    else .error .disabled
  | .computed .. => .error .disabled
  | .push .. | .snapshotReady .. | .recoveryFailed .. | .restored .. => .ok s

/-- A connection task registers its HELLO; the event follows. -/
def register (member : Member) (now : Nat) (ext : HelloExt) : Syncer :=
  let group : Group := ⟨member, s.nextConn⟩
  let s := { s with nextConn := s.nextConn + 1 }
  match s.reg.registerGroupWith group now ext with
  | (.error _, reg) => { s with reg }
  | (.ok (_, admission), reg) =>
    { s with
      reg
      hellos := s.hellos ++ [group]
      log := s.log ++ [.registered group admission s.st.versions] }

def forward (member : Member) (f : ResendConn → Option (List LogEntry × ResendConn)) :
    Except Stop Syncer :=
  let stepped := updateFirst (fun e => decide (BulkResend.member e = member)) (fun e =>
      match f e.conn with
      | some (es, conn) => (some es, { e with conn })
      | none => (none, e)) s.feeds.resends
  match stepped with
  | some (some es, resends) => .ok { s with feeds := { s.feeds with resends }, log := s.log ++ es }
  | _ => .error .disabled

def orphan (i : Nat) (delivered : Bool) : Except Stop Syncer :=
  match s.feeds.orphans[i]? with
  | none => .error .disabled
  | some (group, frame) =>
    .ok { s with
      feeds := { s.feeds with orphans := s.feeds.orphans.eraseIdx i }
      log := s.log ++ if delivered then [.sent group frame] else [] }

def written : Except Stop Syncer :=
  match s.pipe.publishing with
  | some ⟨t, p, false⟩ =>
    .ok { s with
      pipe := { s.pipe with publishing := some ⟨t, p, true⟩ }
      log := s.log ++ [.durable t] }
  | _ => .error .disabled

/-- The steps of all tasks. -/
inductive Op
  /-- The scheduler does the first item of its work. -/
  | turn (i : Inputs)
  | wake (w : Wake)
  | settle (room : Group → Room)
  | register (member : Member) (now : Nat) (ext : HelloExt)
  | unregister (member : Member)
  | pop (member : Member)
  | handOver (member : Member)
  | fail (member : Member)
  | orphan (i : Nat) (delivered : Bool)
  | written

def perform (i : Inputs) : Work → Except Stop Syncer
  | .init => s.beginTraining n cfg i
  | .top => .ok (s.loopHead cfg i.now)
  | .tick expired => .ok (s.recoveryTick cfg expired i.now)
  | .commit => .ok s.commit
  | .apply => s.apply n cfg i.room
  | .launch => .ok (s.launch cfg i)
  | .arm => .ok (s.arm i)
  | .act k now submitted => s.act cfg k now submitted i.now
  | .catchUp => .ok s.catchUp
  | .sendNext group p => s.sendNext n group p (i.room p)
  | .dropResends => .ok s.dropResends
  | .takeDue => .ok (s.takeDue i.settled)
  | .loopEnd submitted => .ok (s.next [if submitted || !s.running cfg then .top else .wait])
  | .wait => .ok (s.next [.top])
  | .begin group => s.beginRecovery cfg group i.now
  | .start group tail => s.start cfg group tail
  | .restored member held => s.restored cfg member held
  | .replay group p => .ok (s.replay n group p (i.room p))
  | .gone member => .ok (s.gone cfg member i.now)
  | .replace member => .ok (s.replace cfg member)
  | .record group floor => .ok ((s.next []).record group floor)
  | .repull group => .ok ((s.next []).repull cfg group.member)
  | .rebind group => .ok ((s.next []).rebindRounds group.member)
  | .promote group replayed => .ok (s.promote group replayed)
  | .deliver member msg => .ok (s.deliver member msg (i.room 0))

def exec : Op → Except Stop Syncer
  | .turn i =>
    match s.todo with
    | [] => .error .disabled
    | w :: _ => s.perform n cfg i w
  | .wake w =>
    match s.todo with
    | .init :: _ => s.wakeInit w
    | .wait :: _ => s.wake cfg w
    | _ => .error .disabled
  | .settle room => s.settle n cfg room
  | .register member now ext => .ok (s.register member now ext)
  | .unregister member =>
    if s.reg.groups.contains member then
      .ok { s with reg := s.reg.unregister member }
    else .error .disabled
  | .pop member => s.forward member fun c => (c.pop n).map ([], ·)
  | .handOver member =>
    s.forward member fun c =>
      c.handOver.map fun (frame, c) => ([.sent c.group frame], c)
  | .fail member =>
    s.forward member fun c =>
      if c.inFlight.isSome then some ([], c.fail) else none
  | .orphan i delivered => s.orphan i delivered
  | .written => s.written

end Syncer

def syncer (n : Numerics) (cfg : Config) (i : Start cfg)
    (allowed : Syncer → Syncer.Op → Bool) : System Syncer where
  init s := cfg.validate = .ok () ∧ s = .new cfg i
  step s s' := ∃ op, allowed s op = true ∧ s.exec n cfg op = .ok s'

def anyOp (_ : Syncer) (_ : Syncer.Op) : Bool := true

end Yeto.Server
