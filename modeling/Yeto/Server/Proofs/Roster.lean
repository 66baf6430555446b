/-
Who a round waits for, and whose pushes it gathered, on a roster that is not
fixed.

A lease that expires, a reconnected generation and a restart rewrite the
expected members of an open round. None of them touches a slot that has
answered, so a round never gathers two pushes of one island in one attempt
(`round_membership`). `AnswersOk` ties the log to the rounds: what was accepted
for the present attempt of a round is in the round.
-/
import Yeto.Server.Proofs.Origin
import Yeto.Server.Proofs.Registration

namespace Yeto.Server

open Lib Downlink List Member SortedMap Round

variable {m : Member} {push : Push} {expected : List Member} {new old : Member}
  {versions : List Nat} {x : Member} {now : Nat} {reg : RegistryState}

namespace Round

variable {cfg : Config} {r r' : Round}

/-- What holds of a push the round gathered. -/
structure Answers (cfg : Config) (r : Round) (m : Member) (push : Push) : Prop where
  expected : m ∈ r.expectedMembers
  step : push.globalStep = r.t
  fragment : push.fragmentId = r.p
  attempt : push.roundAttempt = r.attempt
  base : push.baseVersion ≤ r.baseVersion
  lag : ∀ limit, cfg.maxBaseLag = some limit → r.baseVersion - push.baseVersion ≤ limit

structure MembersOk (cfg : Config) (r : Round) : Prop where
  ids : (r.expectedMembers.map Member.learnerId).Nodup
  answers : ∀ m push, r.pushes.find m = some push → Answers cfg r m push
  quorum : 0 < r.quorumSize
  capacity : ∀ q, r.capacityQuorum = some q → 0 < q.qMin

theorem Answers.of_taken {push' : Push} (h : Answers cfg r m push)
    (htaken : push'.taken = push.taken) : Answers cfg r m push' := by
  have hstep : push'.globalStep = push.globalStep := (congrArg Push.globalStep htaken :)
  have hfrag : push'.fragmentId = push.fragmentId := (congrArg Push.fragmentId htaken :)
  have hattempt : push'.roundAttempt = push.roundAttempt := (congrArg Push.roundAttempt htaken :)
  have hbase : push'.baseVersion = push.baseVersion := (congrArg Push.baseVersion htaken :)
  exact ⟨h.expected, hstep.trans h.step, hfrag.trans h.fragment,
    hattempt.trans h.attempt, hbase ▸ h.base, hbase ▸ h.lag⟩

theorem MembersOk.of_sameWork (h : MembersOk cfg r) (hw : SameWork r r')
    (hids : (r'.expectedMembers.map learnerId).Nodup)
    (hkeep : ∀ m ∈ r.expectedMembers, r.pushes.contains m = true → m ∈ r'.expectedMembers) :
    MembersOk cfg r' where
  ids := hids
  answers m push hm := by
    rw [hw.pushes] at hm
    obtain ⟨he, hs, hf, ha, hb, hl⟩ := h.answers m push hm
    have hin := hkeep m he ((r.pushes.contains_iff m).2 ⟨push, hm⟩)
    rw [← hw.t] at hs
    rw [← hw.p] at hf
    rw [← hw.attempt] at ha
    rw [← hw.baseVersion] at hb hl
    exact ⟨hin, hs, hf, ha, hb, hl⟩
  quorum := hw.quorumSize ▸ h.quorum
  capacity := hw.capacityQuorum ▸ h.capacity

theorem membersOk_forgetUnanswered (h : MembersOk cfg r) :
    MembersOk cfg (r.forgetUnanswered x) := by
  refine h.of_sameWork (sameWork_forgetUnanswered r x) ?_ ?_
  · unfold forgetUnanswered
    split
    · exact h.ids
    · exact (filter_sublist.map _).nodup h.ids
  · intro m hm hans
    unfold forgetUnanswered
    split
    · exact hm
    · next hx =>
      refine mem_filter.2 ⟨hm, decide_eq_true ?_⟩
      rintro rfl
      exact hx hans

theorem membersOk_forgetAll {ms : List Member} : ∀ r : Round, MembersOk cfg r →
      MembersOk cfg (ms.foldl forgetUnanswered r) := by
  induction ms with
  | nil => exact fun r h => h
  | cons m ms ih => exact fun r h => ih _ (membersOk_forgetUnanswered h)

variable {l : List Member}

theorem map_replace_ids (h : new.learnerId = old.learnerId) :
    (l.replace old new).map learnerId = l.map learnerId := by
  induction l with
  | nil => rfl
  | cons x l ih =>
    rw [replace_cons]
    split
    · next hx => rw [map_cons, map_cons, h, ← eq_of_beq hx]
    · rw [map_cons, map_cons, ih]

theorem mem_replace_of_ne (hm : m ∈ l) (hne : m ≠ old) : m ∈ l.replace old new := by
  induction l with
  | nil => cases hm
  | cons x l ih =>
    rw [replace_cons]
    rcases mem_cons.1 hm with rfl | hm
    · split
      · next hx => exact absurd (eq_of_beq hx) (Ne.symm hne)
      · exact mem_cons_self
    · split
      · exact mem_cons_of_mem _ hm
      · exact mem_cons_of_mem _ (ih hm)

theorem find_slot (h : l.find? (fun m => decide (m.learnerId = x.learnerId ∧ m ≠ x)) = some old) :
    old.learnerId = x.learnerId ∧ old ≠ x := of_decide_eq_true (List.find?_some h :)

theorem membersOk_rebind (h : MembersOk cfg r) : MembersOk cfg (r.rebind reg x) := by
  refine h.of_sameWork (sameWork_rebind x r) ?_ ?_
  · unfold rebind
    split
    · exact h.ids
    split
    · exact h.ids
    next old hold =>
    split
    · exact h.ids
    have hid : old.learnerId = x.learnerId := (find_slot hold).1
    have hperm := ((r.expectedMembers.replace old x).perm_insertionSort (· ≤ ·)).map learnerId
    refine hperm.nodup_iff.2 ?_
    rw [map_replace_ids hid.symm]
    exact h.ids
  · intro m hm hans
    unfold rebind
    split
    · exact hm
    next hanswered =>
    split
    · exact hm
    next old hold =>
    split
    · exact hm
    -- The replaced slot is of an island without an answer.
    rw [mem_insertionSort]
    refine mem_replace_of_ne hm ?_
    rintro rfl
    refine hanswered (any_eq_true.2 ⟨m, ?_, ?_⟩)
    · exact (r.pushes.mem_keys_iff m).2 ((r.pushes.contains_iff m).1 hans)
    · exact decide_eq_true (find_slot hold).1

theorem membersOk_quiet (h : MembersOk cfg r) (hq : Syncer.Quiet reg r r') : MembersOk cfg r' := by
  have hsame := sameWork_quiet hq
  cases hq with
  | same => exact h
  | forget now => exact membersOk_forgetAll r h
  | rebind m => exact membersOk_rebind h
  | arm now grace =>
    have hexp : (Syncer.armRound now grace r).expectedMembers = r.expectedMembers := by
      unfold Syncer.armRound
      split <;> rfl
    refine h.of_sameWork hsame ?_ fun m hm _ => ?_ <;> rw [hexp]
    · exact h.ids
    · exact hm
  | defer deadline => exact h.of_sameWork hsame h.ids fun m hm _ => hm

section Accepts

variable (hroster : cfg.fixedRoster = false) (hacc : Accepts cfg m push r)

include hroster hacc

theorem Accepts.mem_expected : m ∈ r.expectedMembers := by
  have := hacc.expected
  rw [expects, if_neg (by simp [hroster])] at this
  exact of_decide_eq_true this

theorem Accepts.unanswered : r.pushes.find m = none := by
  have := hacc.first
  rw [hasAnswer, if_neg (by simp [hroster])] at this
  exact (r.pushes.contains_eq_false_iff m).1 this

end Accepts

theorem membersOk_accept (hroster : cfg.fixedRoster = false) (h : MembersOk cfg r)
    (hacc : Accepts cfg m push r) : MembersOk cfg
      (advanceFold cfg { r with pushes := r.pushes.insert m push } m) := by
  obtain ⟨fold, pushes, heq, hsame⟩ := advanceFold_spec cfg m
  rw [heq]
  refine { h with answers := fun x q hx => ?_ }
  have hx' := hsame x
  rw [hx, find_insert] at hx'
  split at hx'
  · next hxm =>
    have htaken : q.taken = push.taken := Option.some.inj hx'
    have hexp := hacc.mem_expected hroster
    obtain ⟨ht, hp, ha⟩ := hacc.names
    subst hxm
    exact Answers.of_taken ⟨hexp, ht.symm, hp.symm, ha.symm, hacc.base, hacc.lag⟩ htaken
  · obtain ⟨old, hold, htaken⟩ := Option.map_eq_some_iff.1 hx'.symm
    exact { (h.answers x old hold).of_taken htaken.symm with }

theorem membersOk_carried (h : MembersOk cfg r)
    (carried : List (Member × Push)) : MembersOk cfg { r with carried } :=
  { h with answers := fun m push hm => { h.answers m push hm with } }

theorem membersOk_restart (hquorum : 0 < cfg.quorum) (h : MembersOk cfg r)
    (hids : (expected.map learnerId).Nodup) : MembersOk cfg (r.restart cfg versions expected now) :=
  ⟨hids, fun _ _ hm => (nomatch hm), hquorum, h.capacity⟩

theorem membersOk_launch (hquorum : 0 < cfg.quorum) {t : Nat} {p : Nat}
    (hids : (expected.map learnerId).Nodup) :
    MembersOk cfg (Round.launch cfg versions t p expected now) := by
  refine ⟨hids, fun _ _ hm => (nomatch hm), hquorum, fun q hq => ?_⟩
  have hq' : cfg.membership.roundQuorum = some q := hq
  unfold MembershipConfig.roundQuorum at hq'
  split at hq' <;> cases hq'
  exact lt_of_lt_of_le Nat.zero_lt_one (le_max_right _ _)

theorem membersOk_prepared {prepared : Round × PreparedMerge} (h : MembersOk cfg r)
    (hprep : prepareRoundCompute cfg versions r = .ok prepared) : MembersOk cfg prepared.1 := by
  obtain ⟨-, -, hround | ⟨carried, hround, -⟩⟩ := prepareRoundCompute_ok hprep <;> rw [hround]
  · exact h
  · exact { h with answers := fun m push hm => { h.answers m push hm with } }

theorem size_eq_keys (pushes : SortedMap Member Push) : pushes.size = pushes.keys.length := by
  simp [size, SortedMap.keys]

theorem MembersOk.answered_of_complete (h : MembersOk cfg r)
    (hcomplete : r.action now = .complete) : 0 < r.pushes.size := by
  unfold action at hcomplete
  split at hcomplete
  · next hall => exact hall.1
  split at hcomplete
  · next hreached =>
    unfold quorumReached at hreached
    split at hreached
    · next q hq =>
      unfold CapacityQuorum.reached at hreached
      split at hreached
      · cases hreached
      · next hmin =>
        have hpos := h.capacity q hq
        rw [size_eq_keys]
        omega
    · have := of_decide_eq_true hreached
      have := h.quorum
      omega
  split at hcomplete
  · next hsoft => omega
  split at hcomplete <;> cases hcomplete

end Round

namespace Syncer

variable {n : Numerics} {cfg : Config} {s s' : Syncer}

/-- The answers an entry of the log leaves standing. -/
def stand (held : List (Member × Push)) : LogEntry → List (Member × Push)
  | .accepted m push => held ++ [(m, push)]
  | .merged r => held.filter fun a => decide (a.2.globalStep ≠ r.t)
  | .launched t .. => held.filter fun a => decide (a.2.globalStep ≠ t)
  | _ => held

/-- The accepted pushes whose round has neither merged nor started a new
attempt since. -/
def standing (log : List LogEntry) : List (Member × Push) := log.foldl stand []

theorem standing_snoc {log : List LogEntry} {e : LogEntry} :
    standing (log ++ [e]) = stand (standing log) e := by
  unfold standing
  rw [foldl_append]
  rfl

theorem standing_filter (log : List LogEntry) :
    standing (log.filter LogEntry.ofRounds) = standing log := by
  unfold standing
  rw [foldl_filter]
  congr 1
  funext held e
  cases e <;> rfl

variable {a : Member × Push} {e : LogEntry}

theorem mem_stand {held : List (Member × Push)} (h : a ∈ stand held e) :
    a ∈ held ∨ e = .accepted a.1 a.2 := by
  cases e with
  | accepted m push =>
    rcases mem_snoc.1 h with h | rfl
    · exact .inl h
    · exact .inr rfl
  | merged | launched => exact .inl (mem_filter.1 h).1
  | _ => exact .inl h

variable {log : List LogEntry}

theorem accepted_of_standing (h : a ∈ standing log) : LogEntry.accepted a.1 a.2 ∈ log := by
  induction log using List.reverseRecOn with
  | nil => cases h
  | append_singleton log e ih =>
    rw [standing_snoc] at h
    rcases mem_stand h with h | rfl
    · exact mem_append_left _ (ih h)
    · exact mem_append_cons_self

structure Logged (log : List LogEntry) (r : Round) : Prop where
  attempt : ∀ m push, .accepted m push ∈ log → push.globalStep = r.t → push.roundAttempt ≤ r.attempt
  answer : ∀ m push, .accepted m push ∈ log → push.globalStep = r.t →
    push.roundAttempt = r.attempt → (r.pushes.find m).map Push.taken = some push.taken
  standing : ∀ a ∈ standing log, a.2.globalStep = r.t → a.2.roundAttempt = r.attempt

theorem Logged.congr {r r' : Round} (h : Logged log r) (ht : r'.t = r.t)
    (ha : r'.attempt = r.attempt) (hp : r'.pushes = r.pushes) : Logged log r' := by
  obtain ⟨h1, h2, h3⟩ := h
  rw [← ht, ← ha] at h1 h2 h3
  exact ⟨h1, hp ▸ h2, h3⟩

variable {r : Round}

theorem Logged.snoc (h : Logged log r)
    (he : ∀ m push, e = .accepted m push → push.globalStep ≠ r.t) : Logged (log ++ [e]) r := by
  refine ⟨fun m push hmem ht => ?_, fun m push hmem ht ha => ?_, fun a hmem ht => ?_⟩
  · rcases mem_snoc.1 hmem with hmem | rfl
    · exact h.attempt m push hmem ht
    · exact absurd ht (he m push rfl)
  · rcases mem_snoc.1 hmem with hmem | rfl
    · exact h.answer m push hmem ht ha
    · exact absurd ht (he m push rfl)
  · rw [standing_snoc] at hmem
    rcases mem_stand hmem with hmem | rfl
    · exact h.standing a hmem ht
    · exact absurd ht (he _ _ rfl)

theorem Logged.accept (hroster : cfg.fixedRoster = false) (h : Logged log r)
    (hacc : Round.Accepts cfg m push r) : Logged (log ++ [.accepted m push])
      (advanceFold cfg { r with pushes := r.pushes.insert m push } m) := by
  obtain ⟨fold, pushes, heq, hsame⟩ := advanceFold_spec cfg m
  obtain ⟨ht, -, ha⟩ := hacc.names
  rw [heq]
  refine ⟨fun x q hmem hq => ?_, fun x q hmem hq hq' => ?_, fun a hmem hq => ?_⟩
  · rcases mem_snoc.1 hmem with hmem | heq'
    · exact h.attempt x q hmem hq
    · cases heq'
      exact le_of_eq ha.symm
  · rw [hsame x, find_insert]
    rcases mem_snoc.1 hmem with hmem | heq'
    · have hold := h.answer x q hmem hq hq'
      split
      · next hx =>
        rw [hx, hacc.unanswered hroster] at hold
        cases hold
      · exact hold
    · cases heq'
      rw [if_pos rfl]
      rfl
  · rw [standing_snoc] at hmem
    rcases mem_stand hmem with hmem | heq'
    · exact h.standing a hmem hq
    · cases heq'
      exact ha.symm

/-- An island's push is accepted once per attempt. -/
def AcceptedOnce (before : List LogEntry) (e : LogEntry) : Prop := ∀ m push, e = .accepted m push →
    ∀ m' push', .accepted m' push' ∈ before → m'.learnerId = m.learnerId →
      push'.globalStep = push.globalStep → push'.roundAttempt ≠ push.roundAttempt

/-- A round merges with every answer that stands. -/
def MergedWhole (before : List LogEntry) (e : LogEntry) : Prop :=
  ∀ r, e = .merged r → ∀ a ∈ standing before, a.2.globalStep = r.t →
    (r.pushes.find a.1).map Push.taken = some a.2.taken

/-- The answers of a run: each is in the round it was accepted by. -/
structure AnswersOk (cfg : Config) (s : Syncer) : Prop where
  members : ∀ r ∈ s.pipe.rounds, r.MembersOk cfg
  logged : ∀ r ∈ s.pipe.rounds, Logged s.roundLog r
  launched : ∀ m push, .accepted m push ∈ s.roundLog → push.globalStep < s.pipe.nextT
  standing : ∀ a ∈ standing s.roundLog, ∃ r ∈ s.pipe.rounds, r.t = a.2.globalStep
  once : Upheld AcceptedOnce s.roundLog
  merged : Upheld MergedWhole s.roundLog

section Step

variable (hroster : cfg.fixedRoster = false) (hquorum : 0 < cfg.quorum)

include hroster hquorum

theorem membersOk_origin (hreg : RegOk cfg.membership s.reg) (h : AnswersOk cfg s)
    (ho : Origin cfg s s' r) : r.MembersOk cfg := by
  have hids : ((s.reg.currentGroups.map Group.member).map learnerId).Nodup := by
    rw [map_map]
    exact nodup_currentGroups hreg
  cases ho with
  | kept old _ => exact h.members r old
  | quiet old quiet _ => exact membersOk_quiet (h.members _ old) quiet
  | launch round _ =>
    obtain ⟨late, heq, -⟩ := attachLate_spec _
    rw [round, heq]
    refine membersOk_carried (membersOk_launch hquorum ?_) _
    exact ((filter_sublist.map _).map _).nodup hids
  | restart old _ round _ =>
    rw [round]
    exact membersOk_restart hquorum (h.members _ (mem_rounds_inflight old)) hids
  | prepared old _ prepare _ =>
    exact membersOk_prepared (h.members _ (mem_rounds_inflight old)) prepare
  | accept old _ accepts round _ =>
    rw [round]
    exact membersOk_accept hroster (h.members _ (mem_rounds_inflight old)) accepts
  | carry old _ _ _ round _ =>
    rw [round]
    exact membersOk_carried (h.members _ (mem_rounds_inflight old)) _

omit hquorum in
theorem logged_origin (h : AnswersOk cfg s) (hs : PipeStep cfg s s')
    (ho : Origin cfg s s' r) : Logged s'.roundLog r := by
  cases ho with
  | kept old other =>
    rcases hs.roundLog with log | ⟨e, log⟩ <;> rw [log]
    · exact h.logged r old
    · refine (h.logged r old).snoc ?_
      rintro m push rfl
      exact other m push log
  | quiet old quiet log =>
    have hw := sameWork_quiet quiet
    rw [log]
    exact (h.logged _ old).congr hw.t hw.attempt hw.pushes
  | launch round log =>
    obtain ⟨late, heq, -⟩ := attachLate_spec _
    have ht : r.t = s.pipe.nextT := by
      rw [round, heq]
      rfl
    -- Nothing was accepted for a step before its launch.
    have hnew : ∀ m push, .accepted m push ∈ s.roundLog →
        push.globalStep ≠ r.t := fun m push hmem heq' =>
      ne_of_lt (h.launched m push hmem) (heq'.trans ht)
    rw [log]
    refine Logged.snoc ⟨fun m push hmem heq' => ?_,
      fun m push hmem heq' => ?_, fun a hmem heq' => ?_⟩ (fun _ _ => nofun)
    · exact absurd heq' (hnew m push hmem)
    · exact absurd heq' (hnew m push hmem)
    · exact absurd heq' (hnew _ _ (accepted_of_standing hmem))
  | @restart r₀ clock old _ round log =>
    have hold := h.logged r₀ (mem_rounds_inflight old)
    have ht : r.t = r₀.t := by
      rw [round]
      rfl
    have ha : r.attempt = r₀.attempt + 1 := by
      rw [round]
      rfl
    rw [log]
    have hless : ∀ m push, .accepted m push ∈ s.roundLog ++ [.launched r₀.t r₀.p
        (r₀.attempt + 1) s.reg.currentGroups] → push.globalStep = r.t →
        push.roundAttempt < r.attempt := by
      intro m push hmem heq
      rcases mem_snoc.1 hmem with hmem | hno
      · have := hold.attempt m push hmem (heq.trans ht)
        omega
      · cases hno
    refine ⟨fun m push hmem heq => (hless m push hmem heq).le,
      fun m push hmem heq heq' => absurd heq' (hless m push hmem heq).ne, fun a hmem heq => ?_⟩
    · -- The answers of the attempt before do not stand any more.
      rw [standing_snoc] at hmem
      have := of_decide_eq_true (mem_filter.1 hmem).2
      exact absurd (heq.trans ht) this
  | prepared old _ prepare log =>
    have hold := h.logged _ (mem_rounds_inflight old)
    rw [log]
    obtain ⟨-, -, hround | ⟨carried, hround, -⟩⟩ := prepareRoundCompute_ok prepare
    · dsimp only at hround
      rw [hround]
      exact hold
    · dsimp only at hround
      rw [hround]
      exact hold.congr rfl rfl rfl
  | accept old _ accepts round log =>
    rw [log, round]
    exact (h.logged _ (mem_rounds_inflight old)).accept hroster accepts
  | carry old _ _ _ round log =>
    rw [log, round]
    refine Logged.snoc ?_ fun _ _ => nofun
    exact (h.logged _ (mem_rounds_inflight old)).congr rfl rfl rfl

omit hquorum in
theorem acceptedOnce_accept (h : AnswersOk cfg s) (hr : r ∈ s.pipe.inflight)
    (hacc : Round.Accepts cfg m push r) : AcceptedOnce s.roundLog (.accepted m push) := by
  rintro m₀ push₀ heq m' push' hmem hid hstep hattempt
  cases heq
  obtain ⟨ht, -, ha⟩ := hacc.names
  have hin := mem_rounds_inflight hr
  have hanswer := (h.logged r hin).answer m' push' hmem (hstep.trans ht.symm)
    (hattempt.trans ha.symm)
  obtain ⟨q, hq, -⟩ := Option.map_eq_some_iff.1 hanswer
  have hok := h.members r hin
  have hsame : m' = m := inj_on_of_nodup_map hok.ids (hok.answers m' q hq).expected
    (hacc.mem_expected hroster) hid
  rw [hsame, hacc.unanswered hroster] at hq
  cases hq

omit hquorum in
theorem upheld_step (h : AnswersOk cfg s) (hs : PipeStep cfg s s') :
    Upheld AcceptedOnce s'.roundLog ∧ Upheld MergedWhole s'.roundLog := by
  rcases hs.roundLog with log | ⟨e, log⟩ <;> rw [log]
  · exact ⟨h.once, h.merged⟩
  · refine ⟨upheld_snoc.2 ⟨h.once, ?_⟩, upheld_snoc.2 ⟨h.merged, ?_⟩⟩
    · rintro m push rfl
      obtain ⟨r, hr, -, hacc⟩ := hs.logSays log
      exact acceptedOnce_accept hroster h hr hacc m push rfl
    · rintro r rfl a ha hstep
      have hl := h.logged r (hs.logSays log)
      exact hl.answer a.1 a.2 (accepted_of_standing ha) hstep (hl.standing a ha hstep)

omit hroster hquorum in
theorem standing_step (hpipe : PipelineOk cfg s) (hpipe' : PipelineOk cfg s')
    (h : AnswersOk cfg s) (hs : PipeStep cfg s s') (ha : a ∈ standing s'.roundLog) :
    ∃ r ∈ s'.pipe.rounds, r.t = a.2.globalStep := by
  rcases hs.roundLog with log | ⟨e, log⟩
  · rw [log] at ha
    rcases hs.round_stays hpipe hpipe' (h.standing a ha) with hr | ⟨r, hlog, -⟩
    · exact hr
    · exact absurd (log.symm.trans hlog) append_ne_self
  · rw [log, standing_snoc] at ha
    rcases mem_stand ha with hmem | rfl
    · rcases hs.round_stays hpipe hpipe' (h.standing a hmem) with hr | ⟨r, hlog, hstep⟩
      · exact hr
      · rw [log] at hlog
        cases append_cancel_left hlog
        exact absurd hstep.symm (of_decide_eq_true (mem_filter.1 ha).2)
    · obtain ⟨r, hr, -, hacc⟩ := hs.logSays log
      rcases hs.round_stays hpipe hpipe'
        ⟨r, mem_rounds_inflight hr, hacc.names.1⟩ with hr | ⟨r, hlog, -⟩
      · exact hr
      · rw [log] at hlog
        cases append_cancel_left hlog

theorem answersOk_step (hpipe : PipelineOk cfg s) (hpipe' : PipelineOk cfg s')
    (hreg : RegOk cfg.membership s.reg) (h : AnswersOk cfg s) (hs : PipeStep cfg s s') :
    AnswersOk cfg s' where
  members r hr := membersOk_origin hroster hquorum hreg h (hs.origin hpipe hr)
  logged r hr := logged_origin hroster h hs (hs.origin hpipe hr)
  launched m push hmem := by
    refine lt_of_lt_of_le ?_ hs.nextT_le
    rcases hs.roundLog with log | ⟨e, log⟩
    · exact h.launched m push (log ▸ hmem)
    · rw [log] at hmem
      rcases mem_snoc.1 hmem with hmem | rfl
      · exact h.launched m push hmem
      · obtain ⟨r, hr, -, hacc⟩ := hs.logSays log
        exact (hpipe.round_iff.1 ⟨r, mem_rounds_inflight hr, hacc.names.1⟩).2.2
  standing a ha := standing_step hpipe hpipe' h hs ha
  once := (upheld_step hroster h hs).1
  merged := (upheld_step hroster h hs).2

end Step

theorem answersOk_new {i : Start cfg} : AnswersOk cfg (.new cfg i) := by
  refine ⟨fun r hr => (nomatch hr), fun r hr => (nomatch hr), ?_, ?_, ?_, ?_⟩
  all_goals rw [roundLog_new]
  · exact fun m push hmem => (nomatch hmem)
  · exact fun a ha => (nomatch ha)
  · exact upheld_nil
  · exact upheld_nil

theorem answersOk_reachable {i : Start cfg} {allowed : Syncer → Op → Bool}
    (hroster : cfg.fixedRoster = false)
    (h : (syncer n cfg i allowed).Reachable s) : AnswersOk cfg s := by
  have hquorum := Config.quorum_pos_of_validate (validate_of_reachable h)
  refine System.invariant (P := AnswersOk cfg) ?_ ?_ h
  · rintro s ⟨-, rfl⟩
    exact answersOk_new
  · rintro s s' hreach hok ⟨op, hallowed, hexec⟩
    have hpipe := pipelineOk_reachable hreach
    have hstep := (exec_steps hexec).1
    exact answersOk_step hroster hquorum hpipe (pipelineOk_step hpipe hstep)
      (regOk_reachable hreach) hok hstep

/-- Who answers a round, in one state. -/
structure RoundMembership (cfg : Config) (s : Syncer) : Prop where
  distinct : ∀ r ∈ s.pipe.inflight, (r.expectedMembers.map Member.learnerId).Nodup
  answers : ∀ r ∈ s.pipe.inflight, ∀ m push, r.pushes.find m = some push → r.Answers cfg m push
  /-- At most one push per island and attempt is accepted. -/
  once : Upheld AcceptedOnce s.log
  /-- An accepted push is in its round until that merges or restarts. -/
  kept : ∀ a ∈ standing s.log, ∃ r ∈ s.pipe.rounds, r.t = a.2.globalStep
    ∧ r.attempt = a.2.roundAttempt ∧ (r.pushes.find a.1).map Push.taken = some a.2.taken
  merged : Upheld MergedWhole s.log
  complete : ∀ r ∈ s.pipe.inflight, ∀ now, r.action now = .complete → 0 < r.pushes.size

/-- On a roster that is not fixed, in every state of every run: the islands
an open round waits for are distinct, its pushes are of expected members
and of this attempt, and an accepted push stays where it is until its
round merges or starts a new attempt. -/
theorem round_membership {i : Start cfg} (hroster : cfg.fixedRoster = false)
    (h : (syncer n cfg i anyOp).Reachable s) : RoundMembership cfg s := by
  have hok := answersOk_reachable hroster h
  have hin : ∀ r ∈ s.pipe.inflight, r.MembersOk cfg := fun r hr =>
    hok.members r (mem_rounds_inflight hr)
  refine ⟨fun r hr => (hin r hr).ids, fun r hr => (hin r hr).answers, ?_,
    fun a ha => ?_, ?_, fun r hr now => (hin r hr).answered_of_complete⟩
  · refine hok.once.of_filter (fun pre e he m push heq => ?_)
      fun pre e hpre m push heq m' push' hmem => ?_
    · rw [heq] at he
      cases he
    · exact hpre m push heq m' push' (mem_filter.2 ⟨hmem, rfl⟩)
  · have ha' : a ∈ standing s.roundLog := by
      rw [roundLog, standing_filter]
      exact ha
    obtain ⟨r, hr, ht⟩ := hok.standing a ha'
    have hl := hok.logged r hr
    have hattempt := hl.standing a ha' ht.symm
    exact ⟨r, hr, ht, hattempt.symm, hl.answer a.1 a.2 (accepted_of_standing ha') ht.symm hattempt⟩
  · refine hok.merged.of_filter (fun pre e he r heq => ?_) fun pre e hpre r heq a ha => ?_
    · rw [heq] at he
      cases he
    · exact hpre r heq a (standing_filter pre ▸ ha)

def sampleAnswered : Syncer :=
  (Syncer.new sampleConfig sampleStart).ending bitNumerics sampleConfig anyOp (sampleOpening
      ++ [(.wake (.push ⟨0, 1⟩ (samplePush ⟨0, 1⟩ 2 1 0 1) 1), 40)])

theorem round_membership_sample :
    standing sampleAnswered.log = [(⟨0, 1⟩, samplePush ⟨0, 1⟩ 2 1 0 1)]
      ∧ RoundMembership sampleConfig sampleAnswered :=
  ⟨by decide +kernel, round_membership (i := sampleStart) rfl
    (reachable_ending (reachable_new rfl anyOp) (by decide +kernel))⟩

end Syncer

end Yeto.Server
