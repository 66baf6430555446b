/-
What one operation of the syncer can do to the rounds (`PipeStep`), and to the
registry with the HELLO events that wait to be handled (`RegStep`).
`exec_steps` shows that the lists are complete; the results about rounds and
about the registry go by their cases. An operation that does nothing to the
rounds is `Idle`, one that does nothing to the registry `RegIdle`.
-/
import Yeto.Server.Proofs.Registry
import Yeto.Server.Scheduler

namespace Yeto.Server

open Lib Downlink List Option

variable {es : List LogEntry} {e : LogEntry} {p t : Nat} {op : Op} {push : Push}
  {reg : RegistryState} {r : Round} {s₁ : Syncer} {w : Work} {tail : CatchUpTail}
  {ops : List (Op × Nat)} {works : List Work}

def LogEntry.ofRounds : LogEntry → Bool
  | .launched .. | .accepted .. | .carried .. | .merged _ => true
  | _ => false

def LogEntry.ofRegistry : LogEntry → Bool
  | .registered .. | .expired _ | .floor .. => true
  | _ => false

namespace Syncer

/-- What the log says of rounds. -/
def roundLog (s : Syncer) : List LogEntry := s.log.filter LogEntry.ofRounds

variable {n : Numerics} {cfg : Config} {s s' s'' : Syncer}

/-- The rounds are as they were. -/
structure Idle (s s' : Syncer) : Prop where
  pipe : s'.pipe = s.pipe
  versions : s'.st.versions = s.st.versions
  globalStep : s'.st.globalStep = s.st.globalStep
  roundLog : s'.roundLog = s.roundLog

namespace Idle

theorem refl (s : Syncer) : Idle s s := ⟨rfl, rfl, rfl, rfl⟩

theorem trans (h : Idle s s') (h' : Idle s' s'') : Idle s s'' :=
  ⟨h'.pipe.trans h.pipe, h'.versions.trans h.versions,
    h'.globalStep.trans h.globalStep, h'.roundLog.trans h.roundLog⟩

end Idle

theorem idle_renew {member : Member} {now : Nat} : Idle s (s.renew member now) :=
  ⟨rfl, rfl, rfl, rfl⟩

theorem roundLog_append (hlog : s'.log = s.log ++ es) (hes : ∀ e ∈ es, e.ofRounds = false) :
    s'.roundLog = s.roundLog := by
  have hnil : es.filter LogEntry.ofRounds = [] := filter_eq_nil_iff.2 fun e he => by simp [hes e he]
  unfold roundLog
  rw [hlog, filter_append, hnil, append_nil]

theorem roundLog_concat (hlog : s'.log = s.log ++ [e]) (he : e.ofRounds = false) :
    s'.roundLog = s.roundLog := roundLog_append hlog (forall_mem_singleton.2 he)

/-- The rounds and the registry are as they were. -/
structure Still (s s' : Syncer) : Prop where
  pipe : s'.pipe = s.pipe
  versions : s'.st.versions = s.st.versions
  globalStep : s'.st.globalStep = s.st.globalStep
  reg : s'.reg = s.reg
  hellos : s'.hellos = s.hellos
  nextConn : s'.nextConn = s.nextConn
  log : ∃ es, s'.log = s.log ++ es ∧ ∀ e ∈ es, e.ofRounds = false ∧ e.ofRegistry = false

namespace Still

theorem same (hlog : s'.log = s.log) (h : s'.pipe = s.pipe ∧ s'.st = s.st ∧ s'.reg = s.reg
      ∧ s'.hellos = s.hellos ∧ s'.nextConn = s.nextConn) : Still s s' := by
  obtain ⟨hpipe, hst, hreg, hhellos, hconn⟩ := h
  exact ⟨hpipe, by rw [hst], by rw [hst], hreg, hhellos, hconn, [],
    hlog.trans (append_nil _).symm, nofun⟩

theorem refl (s : Syncer) : Still s s := same rfl ⟨rfl, rfl, rfl, rfl, rfl⟩

theorem trans (h : Still s s') (h' : Still s' s'') : Still s s'' := by
  obtain ⟨es, hlog, hes⟩ := h.log
  obtain ⟨es', hlog', hes'⟩ := h'.log
  refine ⟨h'.pipe.trans h.pipe, h'.versions.trans h.versions,
    h'.globalStep.trans h.globalStep, h'.reg.trans h.reg,
    h'.hellos.trans h.hellos, h'.nextConn.trans h.nextConn, es ++ es', ?_, ?_⟩
  · rw [hlog', hlog, append_assoc]
  · intro e he
    exact (mem_append.1 he).elim (hes e) (hes' e)

theorem idle (h : Still s s') : Idle s s' := by
  obtain ⟨es, hlog, hes⟩ := h.log
  exact { h with roundLog := roundLog_append hlog fun e he => (hes e he).1 }

end Still

/-- What the log says of the registry. -/
def regLog (s : Syncer) : List LogEntry := s.log.filter LogEntry.ofRegistry

/-- The registry is as it was. -/
structure RegIdle (s s' : Syncer) : Prop where
  reg : s'.reg = s.reg
  hellos : s'.hellos = s.hellos
  nextConn : s'.nextConn = s.nextConn
  regLog : s'.regLog = s.regLog

namespace RegIdle

theorem refl (s : Syncer) : RegIdle s s := ⟨rfl, rfl, rfl, rfl⟩

theorem trans (h : RegIdle s s') (h' : RegIdle s' s'') : RegIdle s s'' :=
  ⟨h'.reg.trans h.reg, h'.hellos.trans h.hellos, h'.nextConn.trans h.nextConn,
    h'.regLog.trans h.regLog⟩

end RegIdle

theorem regLog_append (hlog : s'.log = s.log ++ es) (hes : ∀ e ∈ es, e.ofRegistry = false) :
    s'.regLog = s.regLog := by
  have hnil : es.filter LogEntry.ofRegistry = [] :=
    filter_eq_nil_iff.2 fun e he => by simp [hes e he]
  unfold regLog
  rw [hlog, filter_append, hnil, append_nil]

theorem regLog_concat (hlog : s'.log = s.log ++ [e]) (he : e.ofRegistry = false) :
    s'.regLog = s.regLog := regLog_append hlog (forall_mem_singleton.2 he)

theorem Still.regIdle (h : Still s s') : RegIdle s s' := by
  obtain ⟨es, hlog, hes⟩ := h.log
  exact { h with regLog := regLog_append hlog fun e he => (hes e he).2 }

section

variable (s)

theorem still_next (works : List Work) : Still s (s.next works) :=
  .same rfl ⟨rfl, rfl, rfl, rfl, rfl⟩

theorem still_setFeeds {feeds : Feeds} :
    Still s (s.setFeeds feeds) := .same rfl ⟨rfl, rfl, rfl, rfl, rfl⟩

theorem still_notes (hes : ∀ e ∈ es, e.ofRounds = false ∧ e.ofRegistry = false) :
    Still s (s.note es) := ⟨rfl, rfl, rfl, rfl, rfl, rfl, es, rfl, hes⟩

theorem still_note (he : e.ofRounds = false ∧ e.ofRegistry = false) : Still s (s.note [e]) :=
  still_notes s fun _ hx => mem_singleton.1 hx ▸ he

theorem still_sendRecovery {out : List (Member × RecoveryMsg) × PeerRecovery} :
    Still s (s.sendRecovery out works) := .same rfl ⟨rfl, rfl, rfl, rfl, rfl⟩

theorem idle_record {group : Group} {floor : List Nat} : Idle s (s.record group floor) := by
  refine ⟨rfl, rfl, rfl, roundLog_append rfl fun e he => ?_⟩
  split at he
  · rw [mem_singleton.1 he]
    rfl
  · cases he

theorem still_owe {group : Group} : Still s (s.owe cfg group tail works) := by
  unfold owe
  split
  · exact .same rfl ⟨rfl, rfl, rfl, rfl, rfl⟩
  · exact still_next s _

end

theorem publish_ok {frame : Frame} {st : GlobalState} (h : s.publish n cfg p = .ok (frame, st)) :
    ∃ downlink, st = { s.st with downlink } := by
  dsimp only [publish] at h
  split at h
  · cases h
    exact ⟨_, rfl⟩
  · split at h <;> cases h
    exact ⟨_, rfl⟩

variable {room : Group → Room}

theorem still_broadcastRound (h : s.broadcastRound n cfg p room = .ok s') : Still s s' := by
  unfold broadcastRound at h
  split at h
  · cases h
  next frame st hp =>
  obtain ⟨downlink, rfl⟩ := publish_ok hp
  cases h
  refine ⟨rfl, rfl, rfl, rfl, rfl, rfl, _, rfl, fun e he => ?_⟩
  rcases mem_cons.1 he with rfl | he
  · exact ⟨rfl, rfl⟩
  · obtain ⟨g, -, rfl⟩ := mem_map.1 he
    exact ⟨rfl, rfl⟩

theorem still_publishRound (h : s.publishRound n cfg t p room = .ok s') : Still s s' := by
  unfold publishRound at h
  split at h
  · exact still_broadcastRound h
  · cases h
    exact .refl s

/-- A published round gives its fragment back. -/
theorem exposeRound_ok (h : s.exposeRound n cfg t p room = .ok s') :
    p ∈ s.pipe.busyFragments ∧ s'.pipe = { s.pipe with
          busyFragments := s.pipe.busyFragments.erase p }
      ∧ s'.st.versions = s.st.versions ∧ s'.st.globalStep = s.st.globalStep
      ∧ s'.roundLog = s.roundLog ∧ RegIdle s s' := by
  unfold exposeRound at h
  split at h
  · cases h
  next s₁ hpub =>
  have hidle := (still_publishRound hpub).idle
  obtain ⟨hp, ⟨⟩⟩ := of_else_error h
  rw [hidle.pipe] at hp
  refine ⟨hp, ?_, hidle.versions, hidle.globalStep, hidle.roundLog,
    { (still_publishRound hpub).regIdle with }⟩
  show ({ s₁.pipe with busyFragments := s₁.pipe.busyFragments.erase p } : Pipeline) = _
  rw [hidle.pipe]

theorem still_initialFragments {groups : List Group} (room : Nat → Group → Room) {ps : List Nat} :
    ∀ s : Syncer, Still s (ps.foldl (initialFragment n cfg groups room) s) := by
  induction ps with
  | nil => exact fun s => .refl s
  | cons p ps ih =>
    intro s
    refine Still.trans ?_ (ih _)
    refine ⟨rfl, rfl, rfl, rfl, rfl, rfl, _, rfl, fun e he => ?_⟩
    obtain ⟨g, -, rfl⟩ := mem_map.1 he
    exact ⟨rfl, rfl⟩

theorem still_broadcastInitialCut {i : Inputs} : Still s (s.broadcastInitialCut n cfg i) := by
  unfold broadcastInitialCut
  split
  · exact still_initialFragments _ _
  · exact .refl _

theorem still_beginTraining {i : Inputs} (h : s.beginTraining n cfg i = .ok s') : Still s s' := by
  obtain ⟨-, ⟨⟩⟩ := of_then_error h
  have hnote : Still s (s.note (s.openingNotes cfg)) := by
    refine still_notes s fun e he => ?_
    unfold openingNotes at he
    split at he <;> simp at he <;> aesop
  exact (hnote.trans still_broadcastInitialCut).trans (still_next _ _)

/-- A round that gets no push, no carried delta and no new attempt. -/
inductive Quiet (reg : RegistryState) : Round → Round → Prop
  | same (r : Round) : Quiet reg r r
  | forget (now : Nat) (r : Round) :
      Quiet reg r ((reg.membership.gone now).foldl Round.forgetUnanswered r)
  | rebind (m : Member) (r : Round) : reg.isCurrentMember m = true → Quiet reg r (r.rebind reg m)
  | arm (now grace : Nat) (r : Round) : Quiet reg r (armRound now grace r)
  | defer (deadline : Nat) (r : Round) : Quiet reg r { r with quorumDeadline := deadline }

/-- No version and no step moved. -/
def SameCut (s s' : Syncer) : Prop :=
  s'.st.versions = s.st.versions ∧ s'.st.globalStep = s.st.globalStep

/-- A push that the decode lets through and the fence does not refuse, of
an anchor that no carried delta has spent. -/
structure Fresh (cfg : Config) (s : Syncer) (member : Member) (push : Push) : Prop where
  decodes : push.decodes cfg member = true
  passes : s.reg.membership.checkPushBase member push.fragmentId push.baseVersion = .ok ()
  unspent : ∀ c, s.pipe.lateCarry = some c → c.reusesAnchor member push = false

/-- What an operation does to the rounds. -/
inductive PipeStep (cfg : Config) (s s' : Syncer) : Prop
  | quiet {inflight : List Round} (rounds : List.Forall₂ (Quiet s.reg) s.pipe.inflight inflight)
      (pipe : s'.pipe = { s.pipe with inflight })
      (cut : SameCut s s') (log : s'.roundLog = s.roundLog)
  | launch {now : Nat} (bound : s.pipe.nextT ≤ cfg.lastStep)
      (free : cfg.schedule.fragmentForStep s.pipe.nextT ∉ s.pipe.busyFragments)
      (some : s.launchGroups ≠ []) (pipe : s'.pipe = let t := s.pipe.nextT
        let p := cfg.schedule.fragmentForStep t
        let late := attachLate s.pipe.lateCarry (Round.launch cfg s.st.versions t p
            (s.launchGroups.map Group.member) now)
        { s.pipe with
          nextT := cfg.schedule.stepAfter t
          busyFragments := p :: s.pipe.busyFragments
          inflight := s.pipe.inflight ++ [late.2]
          lateCarry := late.1 }) (cut : SameCut s s')
      (log : s'.roundLog = s.roundLog ++ [.launched s.pipe.nextT
          (cfg.schedule.fragmentForStep s.pipe.nextT) 1 s.launchGroups])
      (turn : s.todo.head? = Option.some .launch)
  | restart {k now clock : Nat} {submitted : Bool} {r : Round}
      (round : s.pipe.inflight[k]? = Option.some r) (roster : cfg.fixedRoster = false)
      (enough : cfg.membership.minLaunchMembers cfg.quorum ≤ s.reg.currentGroups.length)
      (pipe : s'.pipe = { s.pipe with
          inflight := s.pipe.inflight.set k (r.restart cfg s.st.versions
            (s.reg.currentGroups.map Group.member) clock)
          lateCarry := s.pipe.lateCarry.map fun c =>
            r.pushes.entries.foldl LateCarry.releaseAnchor c }) (cut : SameCut s s')
      (log : s'.roundLog = s.roundLog ++ [.launched r.t r.p (r.attempt + 1) s.reg.currentGroups])
      (turn : s.todo.head? = Option.some (.act k now submitted)) (timeout : r.action now = .restart)
  | submit {k now : Nat} {r : Round} {prepared : Round × PreparedMerge}
      (round : s.pipe.inflight[k]? = Option.some r) (complete : r.action now = .complete)
      (prepare : prepareRoundCompute cfg s.st.versions r = .ok prepared)
      (pipe : s'.pipe = { s.pipe with
          inflight := s.pipe.inflight.eraseIdx k
          computing := s.pipe.computing ++ [prepared] })
      (cut : SameCut s s') (log : s'.roundLog = s.roundLog)
  | computed {i : Nat} {round : Round} {merge : PreparedMerge} {values : List F32}
      (job : s.pipe.computing[i]? = Option.some (round, merge)) (pipe : s'.pipe = { s.pipe with
          computing := s.pipe.computing.eraseIdx i
          ready := s.pipe.ready.insert round.t ⟨round, merge, values⟩ })
      (cut : SameCut s s') (log : s'.roundLog = s.roundLog)
  | accept {member : Member} {push : Push} {inflight : List Round} (fresh : Fresh cfg s member push)
      (route : routePush cfg s.pipe.inflight member push = (.accepted, inflight))
      (pipe : s'.pipe = { s.pipe with
          inflight
          lateCarry := s.pipe.lateCarry.map fun c =>
            c.noteGathered member push.fragmentId push.baseVersion }) (cut : SameCut s s')
      (log : s'.roundLog = s.roundLog ++ [.accepted member push])
  | carry {member : Member} {push : Push} {c c' : LateCarry}
      {outcome : CarryOutcome} {inflight : List Round} (fresh : Fresh cfg s member push)
      (late : s.pipe.lateCarry = Option.some c)
      (closed : s.pipe.inflight.any (Round.isAnsweredBy push) = false)
      (carry : c.carry s.pipe.inflight member push s.pipe.nextT
        (s.st.version push.fragmentId) = (outcome, c', inflight))
      (taken : ∀ d, outcome ≠ .rejected d) (pipe : s'.pipe = { s.pipe with
          inflight
          lateCarry := Option.some (c'.spendAnchor member push.fragmentId push.baseVersion) })
      (cut : SameCut s s') (log : s'.roundLog = s.roundLog ++ [.carried member push])
  | commit {c : ComputedRound} (next : s.pipe.ready.find s.pipe.nextCommitT = Option.some c)
      (settled : s.pipe.publishing = none)
      (contiguous : c.round.t = cfg.schedule.stepAfter s.st.globalStep)
      (base : s.st.versions[c.round.p]? = Option.some c.round.baseVersion) (pipe :
        let pipe := { s.pipe with
          ready := s.pipe.ready.erase s.pipe.nextCommitT
          nextCommitT := cfg.schedule.stepAfter s.pipe.nextCommitT }
        cfg.asyncCheckpoint = true ∧ cfg.persistBeforeBroadcast c.round.t = true
            ∧ s'.pipe = { pipe with
              publishing := Option.some ⟨c.round.t, c.round.p, false⟩ }
          ∨ c.round.p ∈ s.pipe.busyFragments ∧ s'.pipe = { pipe with
              busyFragments := s.pipe.busyFragments.erase c.round.p })
      (versions : s'.st.versions = s.st.versions.set c.round.p c.round.t)
      (globalStep : s'.st.globalStep = c.round.t)
      (log : s'.roundLog = s.roundLog ++ [.merged c.round])
  | settle {t p : Nat} (written : s.pipe.publishing = Option.some ⟨t, p, true⟩)
      (busy : p ∈ s.pipe.busyFragments) (pipe : s'.pipe = { s.pipe with
          publishing := none
          busyFragments := s.pipe.busyFragments.erase p })
      (cut : SameCut s s') (log : s'.roundLog = s.roundLog)
  | written {t p : Nat} (writing : s.pipe.publishing = Option.some ⟨t, p, false⟩)
      (pipe : s'.pipe = { s.pipe with publishing := Option.some ⟨t, p, true⟩ })
      (cut : SameCut s s') (log : s'.roundLog = s.roundLog)

theorem forall₂_quiet_same {rounds : List Round} :
    List.Forall₂ (Quiet reg) rounds rounds := forall₂_same.2 fun r _ => .same r

theorem Idle.pipeStep (h : Idle s s') : PipeStep cfg s s' :=
  .quiet forall₂_quiet_same h.pipe ⟨h.versions, h.globalStep⟩ h.roundLog

theorem Still.pipeStep (h : Still s s') : PipeStep cfg s s' := h.idle.pipeStep

/-- Something happened to the rounds and nothing to the registry. -/
structure RoundStep (cfg : Config) (s s' : Syncer) : Prop where
  pipeStep : PipeStep cfg s s'
  regIdle : RegIdle s s'

theorem Still.roundStep (h : Still s s') : RoundStep cfg s s' := ⟨h.pipeStep, h.regIdle⟩

theorem forall₂_quiet_map {f : Round → Round} {rounds : List Round} (hf : ∀ r, Quiet reg r (f r)) :
    List.Forall₂ (Quiet reg) rounds (rounds.map f) :=
  forall₂_map_right_iff.2 (forall₂_same.2 fun r _ => hf r)

theorem forall₂_quiet_set {rounds : List Round} {k : Nat} {r' : Round} (hk : rounds[k]? = some r)
    (h : Quiet reg r r') : List.Forall₂ (Quiet reg) rounds (rounds.set k r') := by
  induction rounds generalizing k with
  | nil => cases hk
  | cons x rounds ih =>
    cases k with
    | zero =>
      cases hk
      exact .cons h forall₂_quiet_same
    | succ k => exact .cons (.same x) (ih hk)

theorem checkPushBase_renew {m : Membership} {x : Member} {now : Nat} (base : Nat) :
    (m.renew x now).2.checkPushBase x p base = m.checkPushBase x p base := by
  unfold Membership.renew
  split
  · next l hl =>
    split
    · next hg => simp [Membership.checkPushBase, hl, hg]
    · rfl
  · rfl

section

variable (s)

theorem pipeStep_loopHead {now : Nat} : PipeStep cfg s (s.loopHead cfg now) := by
  unfold loopHead
  split
  · have hgone : ((s.reg.expireLeases now).1.map Prod.fst) = s.reg.membership.gone now := by
      simp [RegistryState.expireLeases, Function.comp_def]
    refine .quiet (forall₂_quiet_map fun r => ?_) rfl ⟨rfl, rfl⟩ ?_
    · exact hgone ▸ .forget now r
    · refine roundLog_append rfl fun e he => ?_
      obtain ⟨m, -, rfl⟩ := mem_map.1 he
      rfl
  · exact (still_next s []).pipeStep

theorem still_recoveryTick {expired : List Member} {now : Nat} :
    Still s (s.recoveryTick cfg expired now) := by
  unfold recoveryTick
  split
  · exact still_next s []
  · exact still_sendRecovery _

theorem still_deliver {member : Member} {msg : RecoveryMsg} (room : Group → Room) :
    Still s (s.deliver member msg room) := by
  unfold deliver
  split
  · exact still_next s []
  · split
    · exact still_next s []
    · exact (still_note s ⟨rfl, rfl⟩).trans (still_next _ [])

theorem still_commit : Still s s.commit := by
  unfold commit
  split <;> exact still_next s _

theorem roundLog_note (he : e.ofRounds = true) : (s.note [e]).roundLog = s.roundLog ++ [e] := by
  show (s.log ++ [e]).filter LogEntry.ofRounds = _
  rw [filter_append, filter_singleton, he]
  rfl

end

/-- A commit is the next step, on the version it was based on. -/
theorem applyRoundCommit_ok {c : ComputedRound} (h : s.applyRoundCommit cfg c = .ok s') :
    c.round.t = cfg.schedule.stepAfter s.st.globalStep
      ∧ s.st.versions[c.round.p]? = some c.round.baseVersion ∧ s' = { s with
          st := { s.st with
            versions := s.st.versions.set c.round.p c.round.t
            params := s.st.params.set c.merge.fid c.values
            globalStep := c.round.t }
          pipe := { s.pipe with
            ready := s.pipe.ready.erase s.pipe.nextCommitT
            nextCommitT := cfg.schedule.stepAfter s.pipe.nextCommitT }
          log := s.log ++ [.merged c.round] } := by
  obtain ⟨ht, h⟩ := of_then_error h
  obtain ⟨hb, h⟩ := of_then_error h
  push Not at ht hb
  cases h
  exact ⟨ht, hb.1, rfl⟩

theorem roundStep_apply {room : Nat → Group → Room}
    (h : s.apply n cfg room = .ok s') : RoundStep cfg s s' := by
  unfold apply at h
  split at h
  · cases h
  next hpub =>
  have hnone : s.pipe.publishing = none := by simpa using hpub
  split at h
  · cases h
  next c hc =>
  dsimp only at h
  split at h
  · cases h
  next s₁ happ =>
  obtain ⟨ht, hb, rfl⟩ := applyRoundCommit_ok happ
  have hlog := roundLog_note s (e := .merged c.round) rfl
  split at h
  · next hpersist =>
    split at h
    · next hasync =>
      cases h
      exact ⟨.commit hc hnone ht hb (.inl ⟨hasync, hpersist, rfl⟩) rfl rfl hlog,
        rfl, rfl, rfl, regLog_concat rfl rfl⟩
    · obtain ⟨hp, hpipe, hv, hg, hl, hidle⟩ := exposeRound_ok h
      refine ⟨.commit hc hnone ht hb (.inr ⟨hp, hpipe⟩) hv hg (hl.trans ?_), RegIdle.trans ?_ hidle⟩
      · exact (still_note _ ⟨rfl, rfl⟩).idle.roundLog.trans hlog
      · refine RegIdle.trans ?_ (still_note _ ⟨rfl, rfl⟩).regIdle
        exact ⟨rfl, rfl, rfl, regLog_concat rfl rfl⟩
  · obtain ⟨hp, hpipe, hv, hg, hl, hidle⟩ := exposeRound_ok h
    refine ⟨.commit hc hnone ht hb (.inr ⟨hp, hpipe⟩) hv hg (hl.trans hlog), RegIdle.trans ?_ hidle⟩
    exact ⟨rfl, rfl, rfl, regLog_concat rfl rfl⟩

theorem roundStep_settle (h : s.settle n cfg room = .ok s') : RoundStep cfg s s' := by
  unfold settle at h
  split at h
  · next t p w todo hpub htodo =>
    split at h
    · obtain ⟨hp, hpipe, hv, hg, hl, hidle⟩ := exposeRound_ok h
      exact ⟨.settle hpub hp hpipe ⟨hv, hg⟩ hl, { hidle with }⟩
    · cases h
  · cases h

/-- A launch is a step of rounds, into a free fragment. -/
theorem roundStep_launch (hw : s.todo.head? = some .launch) {i : Inputs} :
    RoundStep cfg s (s.launch cfg i) := by
  dsimp only [launch]
  split
  · next hc =>
    obtain ⟨-, hbound, -, hfree, hsome, -⟩ := hc
    exact ⟨.launch hbound hfree hsome rfl ⟨rfl, rfl⟩ (roundLog_note s rfl) hw,
      rfl, rfl, rfl, regLog_concat rfl rfl⟩
  · exact (still_next s _).roundStep

section

variable {k : Nat} {now : Nat} {submitted : Bool} (hw : s.todo.head? = some (.act k now submitted))
include hw

theorem roundStep_restartRound (hk : s.pipe.inflight[k]? = some r) (hact : r.action now = .restart)
    (clock : Nat) : RoundStep cfg s ((s.restartRound cfg k r clock).next works) := by
  dsimp only [restartRound]
  split
  · exact ⟨.quiet (forall₂_quiet_set hk (.defer _ r)) rfl ⟨rfl, rfl⟩ rfl, rfl, rfl, rfl, rfl⟩
  next hfixed =>
  split
  · exact ⟨.quiet (forall₂_quiet_set hk (.defer _ r)) rfl ⟨rfl, rfl⟩ rfl, rfl, rfl, rfl, rfl⟩
  · next hfew =>
    exact ⟨.restart hk (Bool.eq_false_iff.2 hfixed) (Nat.le_of_not_lt hfew)
      rfl ⟨rfl, rfl⟩ (roundLog_note s rfl) hw hact, rfl, rfl, rfl, regLog_concat rfl rfl⟩

theorem roundStep_act {clock : Nat} (h : s.act cfg k now submitted clock = .ok s') :
    RoundStep cfg s s' := by
  unfold act at h
  split at h
  · cases h
    exact (still_next s _).roundStep
  next r hk =>
  split at h
  · cases h
    exact (still_next s _).roundStep
  · next hact =>
    cases h
    exact roundStep_restartRound hw hk hact _
  next hact =>
  split at h
  · cases h
  next prepared hprep =>
  cases h
  exact ⟨.submit hk hact hprep rfl ⟨rfl, rfl⟩ rfl, rfl, rfl, rfl, rfl⟩

end

theorem roundStep_computed {i : Nat} {values : List F32}
    (h : s.computed i values = .ok s') : RoundStep cfg s s' := by
  unfold computed at h
  split at h
  · cases h
  next round merge hi =>
  repeat' split at h
  all_goals first
    | cases h; done
    | cases h; exact ⟨.computed hi rfl ⟨rfl, rfl⟩ rfl, rfl, rfl, rfl, rfl⟩

theorem roundStep_rebindRounds (member : Member) :
    RoundStep cfg s ((s.next works).rebindRounds member) := by
  unfold rebindRounds
  split
  · next hm =>
    exact ⟨.quiet (forall₂_quiet_map fun r => .rebind member r hm) rfl
      ⟨rfl, rfl⟩ rfl, rfl, rfl, rfl, rfl⟩
  · exact (still_next s works).roundStep

theorem roundStep_repull {member : Member} :
    RoundStep cfg s ((s.next works).repull cfg member) := by
  unfold repull
  split
  · exact (still_next s works).roundStep
  · exact roundStep_rebindRounds member

variable {member : Member}

theorem pipeStep_route (hidle : Idle s s₁) (hfresh : Fresh cfg s member push)
    (h : s₁.route cfg member push = .ok s') : PipeStep cfg s s' ∧ RegIdle s₁ s' := by
  unfold route at h
  rw [hidle.pipe] at h
  split at h
  · next inflight hroute =>
    cases h
    refine ⟨.accept hfresh hroute rfl ⟨hidle.versions, hidle.globalStep⟩ ?_,
      rfl, rfl, rfl, regLog_concat rfl rfl⟩
    exact (roundLog_note s₁ rfl).trans (by rw [hidle.roundLog])
  · obtain ⟨-, ⟨⟩⟩ := of_then_error h
    exact ⟨hidle.pipeStep, .refl _⟩
  · cases h
    exact ⟨hidle.pipeStep, .refl _⟩

theorem pipeStep_carryLate {c : LateCarry} (hidle : Idle s s₁) (hfresh : Fresh cfg s member push)
    (hc : s.pipe.lateCarry = some c)
    (hopen : s.pipe.inflight.any (Round.isAnsweredBy push) = false) :
    PipeStep cfg s (s₁.carryLate c member push) ∧ RegIdle s₁ (s₁.carryLate c member push) := by
  have hver : s₁.st.version push.fragmentId = s.st.version push.fragmentId := by
    unfold GlobalState.version
    rw [hidle.versions]
  dsimp only [carryLate]
  rw [hidle.pipe, hver]
  split
  · exact ⟨hidle.pipeStep, .refl _⟩
  · next outcome c' inflight hne hcarry =>
    refine ⟨.carry hfresh hc hopen hcarry ?_ rfl ⟨hidle.versions, hidle.globalStep⟩ ?_,
      rfl, rfl, rfl, regLog_concat rfl rfl⟩
    · exact fun d hd => hne d hd
    · exact (roundLog_note s₁ rfl).trans (by rw [hidle.roundLog])

/-- A push only renews its sender in the registry. -/
theorem pipeStep_onPush {now : Nat} (h : (s.next works).onPush cfg member push now = .ok s') :
    PipeStep cfg s s' ∧ RegIdle ((s.next works).renew member now) s' := by
  have hidle : Idle s ((s.next works).renew member now) :=
    (still_next s works).idle.trans idle_renew
  unfold onPush at h
  split at h
  · cases h
  next hdec =>
  split at h
  · cases h
  dsimp only at h
  split at h
  · cases h
    exact ⟨hidle.pipeStep, .refl _⟩
  next hpass =>
  have hpass : s.reg.membership.checkPushBase member push.fragmentId push.baseVersion = .ok () :=
    (checkPushBase_renew _).symm.trans hpass
  have hdec : push.decodes cfg member = true := by simpa using hdec
  unfold takePush at h
  rw [hidle.pipe] at h
  split at h
  · next hnone =>
    refine pipeStep_route hidle ⟨hdec, hpass, fun c hc => ?_⟩ h
    rw [hnone] at hc
    cases hc
  next c hc =>
  split at h
  · cases h
    exact ⟨hidle.pipeStep, .refl _⟩
  next hspent =>
  have hfresh : Fresh cfg s member push := by
    refine ⟨hdec, hpass, fun c' hc' => ?_⟩
    rw [hc] at hc'
    cases hc'
    exact Bool.eq_false_iff.2 hspent
  split at h
  · exact pipeStep_route hidle hfresh h
  · next hopen =>
    cases h
    exact pipeStep_carryLate hidle hfresh hc (Bool.eq_false_iff.2 hopen)

theorem still_catchUp : Still s s.catchUp := by
  dsimp only [catchUp]
  split <;> exact (still_setFeeds _).trans (still_next _ _)

variable {group : Group}

theorem still_sendNext (h : s.sendNext n group p room = .ok s') : Still s s' := by
  obtain ⟨-, h⟩ := of_then_error h
  split at h
  · cases h
    exact (still_setFeeds _).trans (still_next _ _)
  · cases h
    exact (still_note s ⟨rfl, rfl⟩).trans (still_next _ _)

theorem still_start (h : s.start cfg group tail = .ok s') : Still s s' := by
  obtain ⟨-, ⟨⟩⟩ := of_then_error h
  exact (still_setFeeds _).trans (still_next _ _)

theorem still_beginRecovery {now : Nat}
    (h : s.beginRecovery cfg group now = .ok s') : Still s s' := by
  obtain ⟨-, ⟨⟩⟩ := of_then_error h
  exact still_sendRecovery _

theorem still_restored {held : Option (List Nat)}
    (h : s.restored cfg member held = .ok s') : Still s s' := by
  unfold restored at h
  split at h
  · cases h
  split at h
  · cases h
    exact still_next s _
  next group _ =>
  split at h
  · cases h
    exact still_next s _
  have hnote : Still s (s.note [.restored group held]) := still_note s ⟨rfl, rfl⟩
  split at h
  · cases h
    exact hnote.trans (still_next _ _)
  · cases h
    exact (hnote.trans (still_setFeeds _)).trans (still_next _ _)

section

variable (s)

theorem still_replay (room : Group → Room) : Still s (s.replay n group p room) := by
  unfold replay
  split
  · exact still_next s _
  · exact (still_note s ⟨rfl, rfl⟩).trans (still_next _ _)

theorem idle_promoteIsland (group : Group) : Idle s (s.promoteIsland group).2 := by
  unfold promoteIsland
  split
  · refine Idle.trans ?_ (idle_record _)
    exact ⟨rfl, rfl, rfl, rfl⟩
  · exact .refl s

theorem idle_promote (group : Group) {replayed : Nat} : Idle s (s.promote group replayed) := by
  have hrec : ∀ (s₁ : Syncer) (recovery : PeerRecovery),
      Idle s₁ { s₁ with recovery } := fun _ _ => ⟨rfl, rfl, rfl, rfl⟩
  dsimp only [promote]
  split <;> exact ((idle_promoteIsland s group).trans (hrec _ _)).trans (still_next _ _).idle

theorem still_replace : Still s (s.replace cfg member) := by
  dsimp only [replace]
  split
  · split
    · exact still_next s _
    · exact still_owe _
  · exact still_next s _

theorem still_onHello (group : Group) : Still s (s.onHello cfg group) := by
  unfold onHello
  split
  · exact still_next s _
  · split
    · exact still_owe _
    · exact still_next s _

end

/-- What an operation does to the registry. -/
inductive RegStep (s s' : Syncer) : Prop
  | same (idle : RegIdle s s')
  | register {member : Member} {now : Nat} {ext : HelloExt}
      {replaced : Option Member} {admission : Admission}
      (reg : s.reg.registerGroupWith ⟨member, s.nextConn⟩ now ext
        = (.ok (replaced, admission), s'.reg))
      (hellos : s'.hellos = s.hellos ++ [⟨member, s.nextConn⟩])
      (nextConn : s'.nextConn = s.nextConn + 1) (log : s'.regLog = s.regLog
        ++ [.registered ⟨member, s.nextConn⟩ admission s.st.versions])
  | refuse (reg : s'.reg = s.reg) (hellos : s'.hellos = s.hellos)
      (nextConn : s'.nextConn = s.nextConn + 1) (log : s'.regLog = s.regLog)
  | unregister {member : Member}
      (reg : s'.reg = s.reg.unregister member) (hellos : s'.hellos = s.hellos)
      (nextConn : s'.nextConn = s.nextConn) (log : s'.regLog = s.regLog)
  | expire {now : Nat} (reg : s'.reg = (s.reg.expireLeases now).2)
      (hellos : s'.hellos = s.hellos) (nextConn : s'.nextConn = s.nextConn)
      (log : s'.regLog = s.regLog ++ (s.reg.membership.gone now).map .expired)
  | renew {member : Member} {now : Nat} (reg : s'.reg = { s.reg with
        membership := (s.reg.membership.renew member now).2 })
      (hellos : s'.hellos = s.hellos) (nextConn : s'.nextConn = s.nextConn)
      (log : s'.regLog = s.regLog)
  | record {group : Group} {floor : List Nat} (reg : s'.reg = { s.reg with
        membership := s.reg.membership.recordCatchUp group.member floor })
      (hellos : s'.hellos = s.hellos) (nextConn : s'.nextConn = s.nextConn)
      (log : s'.regLog = s.regLog ++ if s.awaits group.member then [.floor group floor] else [])
  | promote {group : Group} (recovering : s.reg.isRecovering group.member = true) (reg : s'.reg =
        let reg := (s.reg.promoteRecovered group.member).2
        { reg with membership := reg.membership.recordCatchUp group.member s.st.versions })
      (hellos : s'.hellos = s.hellos) (nextConn : s'.nextConn = s.nextConn)
      (log : s'.regLog = s.regLog
        ++ if s.awaits group.member then [.floor group s.st.versions] else [])
  | handled {group : Group} (waiting : group ∈ s.hellos)
      (reg : s'.reg = s.reg ∨ s.todo.head? = some .init
        ∧ s'.reg = (s.reg.promoteRecovered group.member).2)
      (hellos : s'.hellos = s.hellos.erase group)
      (nextConn : s'.nextConn = s.nextConn) (log : s'.regLog = s.regLog)
  | disconnected {member : Member} (reg : s'.reg = s.reg.disconnectHandled member)
      (hellos : s'.hellos = s.hellos) (nextConn : s'.nextConn = s.nextConn)
      (log : s'.regLog = s.regLog)

theorem regStep_loopHead {now : Nat} : RegStep s (s.loopHead cfg now) := by
  unfold loopHead
  split
  · have hgone : ((s.reg.expireLeases now).1.map Prod.fst) = s.reg.membership.gone now := by
      simp [RegistryState.expireLeases, Function.comp_def]
    refine .expire rfl rfl rfl ?_
    show (s.log ++ ((s.reg.expireLeases now).1.map _).map LogEntry.expired).filter
      LogEntry.ofRegistry = _
    rw [hgone, filter_append]
    congr 1
    exact filter_eq_self.2 fun e he => by
      obtain ⟨m, -, rfl⟩ := mem_map.1 he
      rfl
  · exact .same (still_next s []).regIdle

theorem filter_floor {c : Bool} {floor : List Nat} :
    (if c then [LogEntry.floor group floor] else []).filter LogEntry.ofRegistry
      = if c then [LogEntry.floor group floor] else [] := by cases c <;> rfl

theorem regStep_record {floor : List Nat} : RegStep s ((s.next works).record group floor) := by
  refine .record rfl rfl rfl ?_
  show (s.log ++ _).filter LogEntry.ofRegistry = _
  rw [filter_append, filter_floor]
  rfl

theorem regStep_promote (replayed : Nat) : RegStep s (s.promote group replayed) := by
  have hidle : RegIdle (s.promoteIsland group).2 (s.promote group replayed) := by
    dsimp only [promote]
    split <;> exact ⟨rfl, rfl, rfl, rfl⟩
  obtain ⟨hr, hh, hc, hl⟩ := hidle
  unfold promoteIsland RegistryState.promoteRecovered at hr hh hc hl
  by_cases hrec : s.reg.isRecovering group.member = true
  · simp only [hrec, if_true] at hr hh hc hl
    refine .promote hrec ?_ hh hc ?_
    · rw [hr]
      unfold RegistryState.promoteRecovered
      rw [if_pos hrec]
      rfl
    · rw [hl]
      show (s.log ++ _).filter LogEntry.ofRegistry = _
      rw [filter_append, filter_floor]
      rfl
  · simp only [hrec] at hr hh hc hl
    exact .same ⟨hr, hh, hc, hl⟩

theorem regStep_register {now : Nat} {ext : HelloExt} : RegStep s (s.register member now ext) := by
  dsimp only [register]
  split
  · next reg hreg => exact .refuse (register_error hreg) rfl rfl rfl
  · next replaced admission reg hreg =>
    refine .register hreg rfl rfl ?_
    show (s.log ++ [_]).filter LogEntry.ofRegistry = _
    rw [filter_append]
    rfl

theorem RoundStep.steps (h : RoundStep cfg s s') : PipeStep cfg s s' ∧ RegStep s s' :=
  ⟨h.pipeStep, .same h.regIdle⟩

theorem Still.steps (h : Still s s') : PipeStep cfg s s' ∧ RegStep s s' := h.roundStep.steps

/-- What an event of the scheduler can do. -/
theorem steps_wake {w : Wake} (h : s.wake cfg w = .ok s') : PipeStep cfg s s' ∧ RegStep s s' := by
  cases w with
  | computed i values => exact (roundStep_computed h).steps
  | push member push now =>
    obtain ⟨hpipe, hidle⟩ := pipeStep_onPush h
    exact ⟨hpipe, .renew hidle.reg hidle.hellos hidle.nextConn hidle.regLog⟩
  | heartbeat member now =>
    cases h
    exact ⟨((still_next s _).idle.trans idle_renew).pipeStep, .renew rfl rfl rfl rfl⟩
  | hello group =>
    obtain ⟨hmem, ⟨⟩⟩ := of_else_error h
    have hhandled : Idle s (s.handled group) := ⟨rfl, rfl, rfl, rfl⟩
    have hstill : Still _ ((s.handled group).onHello cfg group) := still_onHello _ group
    have hidle := hstill.regIdle
    exact ⟨(hhandled.trans hstill.idle).pipeStep,
      .handled hmem (.inl hidle.reg) hidle.hellos hidle.nextConn hidle.regLog⟩
  | snapshotReady | recoveryFailed =>
    cases h
    exact (still_sendRecovery _).steps
  | restored member held =>
    dsimp only [wake] at h
    split at h <;> cases h <;> exact (still_next s _).steps
  | disconnected member =>
    obtain ⟨-, ⟨⟩⟩ := of_else_error h
    exact ⟨Idle.pipeStep ⟨rfl, rfl, rfl, rfl⟩, .disconnected rfl rfl rfl rfl⟩

theorem steps_wakeInit {w : Wake} (hinit : s.todo.head? = some .init)
    (h : s.wakeInit w = .ok s') : Idle s s' ∧ RegStep s s' := by
  cases w with
  | computed i values => cases h
  | heartbeat member now =>
    cases h
    exact ⟨idle_renew, .renew rfl rfl rfl rfl⟩
  | hello group =>
    obtain ⟨hmem, ⟨⟩⟩ := of_else_error h
    dsimp only [admitRecovering]
    split
    · exact ⟨⟨rfl, rfl, rfl, rfl⟩, .handled hmem (.inr ⟨hinit, rfl⟩) rfl rfl rfl⟩
    · exact ⟨⟨rfl, rfl, rfl, rfl⟩, .handled hmem (.inl rfl) rfl rfl rfl⟩
  | push | snapshotReady | recoveryFailed | restored =>
    cases h
    exact ⟨.refl s, .same (.refl s)⟩
  | disconnected member =>
    obtain ⟨-, ⟨⟩⟩ := of_else_error h
    exact ⟨⟨rfl, rfl, rfl, rfl⟩, .disconnected rfl rfl rfl rfl⟩

theorem idle_register {now : Nat} {ext : HelloExt} : Idle s (s.register member now ext) := by
  dsimp only [register]
  split
  · exact ⟨rfl, rfl, rfl, rfl⟩
  · exact ⟨rfl, rfl, rfl, roundLog_concat rfl rfl⟩

theorem still_forward {f : ResendConn → Option (List LogEntry × ResendConn)}
    (hf : ∀ c es conn, f c = some (es, conn) → ∀ e ∈ es, e.ofRounds = false ∧ e.ofRegistry = false)
    (h : s.forward member f = .ok s') : Still s s' := by
  dsimp only [forward] at h
  split at h <;> cases h
  next es resends hstep =>
  obtain ⟨_, e, _, -, -, -, hes, -⟩ := updateFirst_eq_some hstep
  split at hes <;> cases hes
  next hfe => exact ⟨rfl, rfl, rfl, rfl, rfl, rfl, es, rfl, hf _ _ _ hfe⟩

theorem still_orphan {i : Nat} {delivered : Bool}
    (h : s.orphan i delivered = .ok s') : Still s s' := by
  unfold orphan at h
  split at h <;> cases h
  refine ⟨rfl, rfl, rfl, rfl, rfl, rfl, _, rfl, fun e he => ?_⟩
  split at he
  · rw [mem_singleton.1 he]
    exact ⟨rfl, rfl⟩
  · cases he

theorem roundStep_written (h : s.written = .ok s') : RoundStep cfg s s' := by
  unfold written at h
  split at h <;> cases h
  next t p hpub =>
  exact ⟨.written hpub rfl ⟨rfl, rfl⟩ (roundLog_concat rfl rfl),
    rfl, rfl, rfl, regLog_concat rfl rfl⟩

/-- All work but these three kinds is a step of rounds. -/
theorem roundStep_perform {i : Inputs} (hw : s.todo.head? = some w)
    (h : s.perform n cfg i w = .ok s') : RoundStep cfg s s'
      ∨ w = .top ∨ (∃ group floor, w = .record group floor) ∨ ∃ group k, w = .promote group k := by
  cases w with
  | top => exact .inr (.inl rfl)
  | record group floor => exact .inr (.inr (.inl ⟨group, floor, rfl⟩))
  | promote group k => exact .inr (.inr (.inr ⟨group, k, rfl⟩))
  | init => exact .inl (still_beginTraining h).roundStep
  | tick expired =>
    cases h
    exact .inl (still_recoveryTick _).roundStep
  | commit =>
    cases h
    exact .inl (still_commit s).roundStep
  | apply => exact .inl (roundStep_apply h)
  | launch =>
    cases h
    exact .inl (roundStep_launch hw)
  | arm =>
    cases h
    exact .inl ⟨.quiet (forall₂_quiet_map fun r => .arm _ _ r) rfl ⟨rfl, rfl⟩ rfl,
      rfl, rfl, rfl, rfl⟩
  | act k now submitted => exact .inl (roundStep_act hw h)
  | catchUp =>
    cases h
    exact .inl still_catchUp.roundStep
  | sendNext group p => exact .inl (still_sendNext h).roundStep
  | dropResends | takeDue =>
    cases h
    exact .inl ((still_setFeeds _).trans (still_next _ _)).roundStep
  | loopEnd | wait =>
    cases h
    exact .inl (still_next s _).roundStep
  | begin group => exact .inl (still_beginRecovery h).roundStep
  | start group tail => exact .inl (still_start h).roundStep
  | restored member held => exact .inl (still_restored h).roundStep
  | replay group p =>
    cases h
    exact .inl (still_replay _ _).roundStep
  | gone member =>
    cases h
    exact .inl (still_sendRecovery _).roundStep
  | replace member =>
    cases h
    exact .inl (still_replace _).roundStep
  | repull group =>
    cases h
    exact .inl roundStep_repull
  | rebind group =>
    cases h
    exact .inl (roundStep_rebindRounds _)
  | deliver member msg =>
    cases h
    exact .inl (still_deliver _ _).roundStep

theorem steps_perform {i : Inputs} (hw : s.todo.head? = some w)
    (h : s.perform n cfg i w = .ok s') : PipeStep cfg s s' ∧ RegStep s s' := by
  obtain hstep | rfl | ⟨group, floor, rfl⟩ | ⟨group, k, rfl⟩ := roundStep_perform hw h
  · exact hstep.steps
  · cases h
    exact ⟨pipeStep_loopHead _, regStep_loopHead⟩
  · cases h
    exact ⟨((still_next s _).idle.trans (idle_record _)).pipeStep, regStep_record⟩
  · cases h
    exact ⟨(idle_promote s _).pipeStep, regStep_promote _⟩

theorem idle_unregister (h : s.exec n cfg (.unregister member) = .ok s') : Idle s s' := by
  obtain ⟨-, ⟨⟩⟩ := of_else_error h
  exact ⟨rfl, rfl, rfl, rfl⟩

theorem still_pop (h : s.exec n cfg (.pop member) = .ok s') : Still s s' := by
  dsimp only [exec] at h
  refine still_forward (fun c es conn hf e he => ?_) h
  obtain ⟨c', -, heq⟩ := map_eq_some_iff.1 hf
  cases heq
  cases he

theorem still_handOver (h : s.exec n cfg (.handOver member) = .ok s') : Still s s' := by
  dsimp only [exec] at h
  refine still_forward (fun c es conn hf e he => ?_) h
  obtain ⟨⟨frame, c'⟩, -, heq⟩ := map_eq_some_iff.1 hf
  cases heq
  rw [mem_singleton.1 he]
  exact ⟨rfl, rfl⟩

theorem still_fail (h : s.exec n cfg (.fail member) = .ok s') : Still s s' := by
  dsimp only [exec] at h
  refine still_forward (fun c es conn hf e he => ?_) h
  obtain ⟨-, ⟨⟩⟩ := of_guard hf
  cases he

/-- Every operation is a step of rounds and of the registry. -/
theorem exec_steps (h : s.exec n cfg op = .ok s') : PipeStep cfg s s' ∧ RegStep s s' := by
  cases op with
  | turn i =>
    dsimp only [exec] at h
    split at h
    · cases h
    · next htodo => exact steps_perform (by rw [htodo]; rfl) h
  | wake w =>
    dsimp only [exec] at h
    split at h
    · next htodo => exact (steps_wakeInit (by rw [htodo]; rfl) h).imp_left Idle.pipeStep
    · exact steps_wake h
    · cases h
  | settle room => exact (roundStep_settle h).steps
  | register member now ext =>
    cases h
    exact ⟨idle_register.pipeStep, regStep_register⟩
  | unregister member =>
    refine ⟨(idle_unregister h).pipeStep, ?_⟩
    obtain ⟨-, ⟨⟩⟩ := of_else_error h
    exact .unregister rfl rfl rfl rfl
  | pop member => exact (still_pop h).steps
  | handOver member => exact (still_handOver h).steps
  | fail member => exact (still_fail h).steps
  | orphan i delivered => exact (still_orphan h).steps
  | written => exact (roundStep_written h).steps

/-- While the scheduler has work that waits for nothing, only a turn of the
scheduler logs something about rounds. -/
theorem turn_of_work (h : s.exec n cfg op = .ok s') (hw : s.todo.head? = some w)
    (hsettles : w.settles = false) (hinit : w ≠ .init) (hlog : s'.roundLog ≠ s.roundLog) :
    ∃ i, op = .turn i := by
  cases op with
  | turn i => exact ⟨i, rfl⟩
  | wake e =>
    dsimp only [exec] at h
    split at h
    · next htodo =>
      rw [htodo] at hw
      exact absurd (some.inj hw).symm hinit
    · next htodo =>
      rw [htodo] at hw
      rw [← some.inj hw] at hsettles
      cases hsettles
    · cases h
  | settle room =>
    dsimp only [exec, settle] at h
    split at h
    · next htodo =>
      rw [htodo] at hw
      rw [some.inj hw, hsettles] at h
      cases h
    · cases h
  | register member now ext =>
    cases h
    exact absurd idle_register.roundLog hlog
  | unregister member => exact absurd (idle_unregister h).roundLog hlog
  | pop member => exact absurd (still_pop h).idle.roundLog hlog
  | handOver member => exact absurd (still_handOver h).idle.roundLog hlog
  | fail member => exact absurd (still_fail h).idle.roundLog hlog
  | orphan i delivered => exact absurd (still_orphan h).idle.roundLog hlog
  | written =>
    refine absurd ?_ hlog
    dsimp only [exec, written] at h
    split at h <;> cases h
    exact roundLog_concat rfl rfl

section Runs

variable {i : Start cfg} {allowed : Syncer → Op → Bool}

theorem reachable_new (h : cfg.validate = .ok ()) {i : Start cfg} (allowed : Syncer → Op → Bool) :
    (syncer n cfg i allowed).Reachable (.new cfg i) := .init ⟨h, rfl⟩

theorem validate_of_reachable (h : (syncer n cfg i allowed).Reachable s) :
    cfg.validate = .ok () := by
  induction h with
  | init hinit => exact hinit.1
  | step _ _ ih => exact ih

def attempt (n : Numerics) (cfg : Config) (allowed : Syncer → Op → Bool)
    (s : Syncer) (op : Op) : Except Stop Syncer :=
  if allowed s op then s.exec n cfg op else .error .disabled

/-- The scheduler works on with default inputs until it waits. -/
def workOn (n : Numerics) (cfg : Config) (allowed : Syncer → Op → Bool) :
    Nat → Syncer → Except Stop Syncer
  | 0, s => .ok s
  | fuel + 1, s =>
    match s.todo with
    | .wait :: _ | .init :: _ | [] => .ok s
    | _ => s.attempt n cfg allowed (.turn {}) >>= workOn n cfg allowed fuel

/-- A run given by its events: after each operation the scheduler works
on for up to `fuel` turns. -/
def story (n : Numerics) (cfg : Config) (allowed : Syncer → Op → Bool)
    (s : Syncer) (ops : List (Op × Nat)) : Except Stop Syncer :=
  ops.foldlM (fun s e => s.attempt n cfg allowed e.1 >>= workOn n cfg allowed e.2) s

theorem reachable_attempt (h : (syncer n cfg i allowed).Reachable s)
    (ha : s.attempt n cfg allowed op = .ok s') : (syncer n cfg i allowed).Reachable s' := by
  obtain ⟨hallowed, ha⟩ := of_else_error ha
  exact h.step ⟨op, hallowed, ha⟩

theorem bind_ok {α β : Type} {x : Except Stop α} {f : α → Except Stop β} {b : β}
    (h : (x >>= f) = .ok b) : ∃ a, x = .ok a ∧ f a = .ok b := by
  cases x with
  | error e => cases h
  | ok a => exact ⟨a, rfl, h⟩

theorem reachable_workOn {fuel : Nat} : ∀ {s : Syncer}, (syncer n cfg i allowed).Reachable s →
      ∀ {s'}, s.workOn n cfg allowed fuel = .ok s' → (syncer n cfg i allowed).Reachable s' := by
  induction fuel with intro s h s' hw
  | zero =>
    cases hw
    exact h
  | succ fuel ih =>
    unfold workOn at hw
    split at hw
    case h_4 =>
      obtain ⟨s₁, ha, hw⟩ := bind_ok hw
      exact ih (reachable_attempt h ha) hw
    all_goals
      cases hw
      exact h

theorem reachable_story : ∀ {s : Syncer}, (syncer n cfg i allowed).Reachable s →
      ∀ {s'}, s.story n cfg allowed ops = .ok s' → (syncer n cfg i allowed).Reachable s' := by
  induction ops with intro s h s' hs
  | nil =>
    cases hs
    exact h
  | cons e ops ih =>
    obtain ⟨s₁, he, hs⟩ := bind_ok hs
    obtain ⟨s₂, ha, hw⟩ := bind_ok he
    exact ih (reachable_workOn (reachable_attempt h ha) hw) hs

/-- The state behind a story. -/
def ending (n : Numerics) (cfg : Config) (allowed : Syncer → Op → Bool)
    (s : Syncer) (ops : List (Op × Nat)) : Syncer := (s.story n cfg allowed ops).toOption.getD s

theorem reachable_ending (h : (syncer n cfg i allowed).Reachable s)
    (hok : (s.story n cfg allowed ops).toOption.isSome = true) :
    (syncer n cfg i allowed).Reachable (s.ending n cfg allowed ops) := by
  unfold ending
  cases hs : s.story n cfg allowed ops with
  | error e =>
    rw [hs] at hok
    cases hok
  | ok s' => exact reachable_story h hs

end Runs

end Syncer

end Yeto.Server
