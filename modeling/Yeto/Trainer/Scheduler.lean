/-
The ski-rental scheduler of the trainer (`yeto/rl/engine/trainer_scheduler.py`:
`S1Config`, `S1Scheduler`; `trainer_lifecycle.py`: `LifecycleState`,
`allowed_transition`), with exact times.

Between decisions the trainer moves as `allowed_transition` says; a new
incarnation is cold and, as in `trainer_loop.py`, only started behind a decision
in COLD or STOPPED. The clock reads anything, and the head restarts at any time.
With `alpha` 1, or a start that takes no time, a trainer is started for an empty
backlog (`empty_start`).
-/
import Mathlib.Data.Rat.Floor
import Yeto.Lib.Guards
import Yeto.Lib.System

namespace Yeto.Trainer

open Lib List

inductive LifecycleState
  | cold | acquiring | joining | restoring | warming | training | draining | stopped
deriving DecidableEq

def allowedTransition (old new : LifecycleState) : Bool :=
  if new = .stopped then decide (old ≠ .stopped) else decide (new.ctorIdx = old.ctorIdx + 1)

def startable (state : LifecycleState) : Prop := state = .cold ∨ state = .stopped
deriving Decidable

inductive LeaveReason
  | finished | stopped
deriving DecidableEq

inductive Decision
  | start | hold | stop (reason : LeaveReason)
deriving DecidableEq

structure BacklogStats where
  batches : ℚ
  dataEnded : Bool

structure StartEvent where
  event : String
  totalS : Option ℚ

def lastStartSeconds (events : List StartEvent) : Option ℚ := events.foldl
  (fun last e => if e.event = "trainer_start_summary" then e.totalS.or last else last) none

structure S1Config where
  aHard : Nat
  startSeconds : ℚ
  alpha : Option ℚ
  batchSeconds : Option ℚ
  fixedStartSeconds : Bool
  start_nonneg : 0 ≤ startSeconds
  /-- An `alpha` is in (0, 1] and needs a batch time. -/
  alpha_ok : ∀ a ∈ alpha, 0 < a ∧ a ≤ 1 ∧ 0 < batchSeconds.getD 0

variable (c : S1Config)

def S1Config.startTime (events : List StartEvent) : ℚ :=
  if c.fixedStartSeconds then c.startSeconds
  else (lastStartSeconds events).getD c.startSeconds

def S1Config.qOn (tS : ℚ) : Int :=
  match c.alpha with
  | none => c.aHard + 1
  | some a => min ⌈tS * (1 - a) / (a * c.batchSeconds.getD 0)⌉ (c.aHard + 1)

def decision (idle : Option ℚ) (b : BacklogStats) (state : LifecycleState)
    (now tS : ℚ) (qOn : Int) : Decision × Option ℚ :=
  if b.dataEnded = true ∧ b.batches < 1 then
    if state ≠ .training ∧ ¬ startable state then (.hold, idle) else (.stop .finished, none)
  else if startable state then
    (if qOn ≤ b.batches ∨ b.dataEnded = true then .start else .hold, none)
  else if state ≠ .training then (.hold, idle)
  else if 1 ≤ b.batches then (.hold, none)
  else if tS ≤ now - idle.getD now then (.stop .stopped, none)
  else (.hold, some (idle.getD now))

/-- The records of the scheduler: the idle times. -/
def journal (before idle : Option ℚ) (d : Decision) : List (Option ℚ) :=
  if idle = before ∧ d = .hold then [] else [idle]

def restore (records : List (Option ℚ)) : Option ℚ := records.getLastD none

structure Made where
  now : ℚ
  tS : ℚ
  state : LifecycleState
  backlog : BacklogStats
  decision : Decision

/-- `asked`: the last decision was made in COLD or STOPPED. -/
structure State where
  state : LifecycleState := .cold
  idleSince : Option ℚ := none
  asked : Bool := false
  journal : List (Option ℚ) := []
  log : List Made := []

inductive Op
  | decide (b : BacklogStats) (now : ℚ) (events : List StartEvent)
  | move (new : LifecycleState)
  | restart

def State.exec (s : State) : Op → Option State
  | .decide b now events =>
    let tS := c.startTime events
    let r := decision s.idleSince b s.state now tS (c.qOn tS)
    some { s with
      idleSince := r.2, asked := decide (startable s.state)
      journal := s.journal ++ Trainer.journal s.idleSince r.2 r.1
      log := s.log ++ [⟨now, tS, s.state, b, r.1⟩] }
  | .move new =>
    if (allowedTransition s.state new = true ∨ s.state = .stopped ∧ new = .cold)
        ∧ (startable s.state → new = .stopped ∨ s.asked = true)
    then some { s with state := new } else none
  | .restart => some { s with idleSince := restore s.journal }

/-- With an `alpha`, it is below 1 and starts take time. -/
def paid (_ : State) : Op → Bool
  | .decide _ _ events => c.alpha.all fun a => decide (a < 1 ∧ 0 < c.startTime events)
  | _ => true

def trainer (allowed : State → Op → Bool) : System State := .guarded {} allowed (State.exec c)

/-- All decisions from one at time `t` on were made below one batch. -/
def Idling (log : List Made) (t : ℚ) : Prop := ∃ before first between,
  log = before ++ first :: between ∧ first.now = t ∧ ∀ x ∈ first :: between, x.backlog.batches < 1

/-- What a decision may be behind others. -/
structure Law (pre : List Made) (e : Made) : Prop where
  start : e.decision = .start → startable e.state ∧ 1 ≤ e.backlog.batches
  stopped : e.decision = .stop .stopped → e.state = .training
    ∧ ∃ t, Idling (pre ++ [e]) t ∧ e.tS ≤ e.now - t
  finished : e.decision = .stop .finished → e.backlog.dataEnded = true ∧ e.backlog.batches < 1
  ended : e.backlog.dataEnded = true → 1 ≤ e.backlog.batches → startable e.state →
    e.decision = .start

structure Inv (s : State) : Prop where
  /-- The trainer got to TRAINING and was not asked for since. -/
  idle : ∀ t, s.idleSince = some t → s.asked = false
    ∧ LifecycleState.training.ctorIdx ≤ s.state.ctorIdx ∧ (s.state = .training → Idling s.log t)
  journal : restore s.journal = s.idleSince
  law : Upheld Law s.log

variable {c}

theorem one_le_qOn {tS : ℚ} (h : c.alpha.all (fun a => decide (a < 1 ∧ 0 < tS)) = true) :
    1 ≤ c.qOn tS := by
  have hcap : (1 : Int) ≤ c.aHard + 1 := by omega
  unfold S1Config.qOn
  cases ha : c.alpha with
  | none => exact hcap
  | some a =>
    rw [ha] at h
    obtain ⟨hlt, htime⟩ := of_decide_eq_true h
    obtain ⟨hpos, -, hbatch⟩ := c.alpha_ok a ha
    refine le_min (Int.one_le_ceil_iff.2 ?_) hcap
    exact div_pos (mul_pos htime (sub_pos.2 hlt)) (mul_pos hpos hbatch)

variable {pre : List Made} {idle : Option ℚ}

theorem idling_getD {e : Made} (h : ∀ t, idle = some t → Idling pre t)
    (he : e.backlog.batches < 1) : Idling (pre ++ [e]) (idle.getD e.now) := by
  cases idle with
  | none => exact ⟨pre, e, [], rfl, rfl, forall_mem_singleton.2 he⟩
  | some t =>
    obtain ⟨before, first, between, rfl, ht, hall⟩ := h t rfl
    refine ⟨before, first, between ++ [e], append_assoc .., ht, ?_⟩
    exact forall_mem_append.2 ⟨hall, forall_mem_singleton.2 he⟩

/-- A decision is lawful, and an idle time behind it is one of before, or one
of decisions below one batch. -/
theorem decision_law (b : BacklogStats) (now tS : ℚ) {state : LifecycleState} {q : Int} (hq : 1 ≤ q)
    (hidle : state = .training → ∀ t, idle = some t → Idling pre t) :
    let r := decision idle b state now tS q
    let e : Made := ⟨now, tS, state, b, r.1⟩
    Law pre e ∧ ∀ t, r.2 = some t → ¬ startable state ∧ (state ≠ .training → idle = some t)
      ∧ (state = .training → Idling (pre ++ [e]) t) := by
  have hq' : (1 : ℚ) ≤ q := by exact_mod_cast hq
  have hspan := fun d htrain => idling_getD (e := ⟨now, tS, state, b, d⟩) (hidle htrain)
  fun_cases decision
  all_goals
    refine ⟨⟨?_, ?_, ?_, ?_⟩, ?_⟩
    all_goals grind

theorem restore_journal {records : List (Option ℚ)} {before : Option ℚ} {d : Decision}
    (h : restore records = before) : restore (records ++ journal before idle d) = idle := by
  unfold journal
  split
  · next hsame => rw [append_nil, h, hsame.1]
  · exact getLastD_concat ..

theorem move_of_idle {old new : LifecycleState} : LifecycleState.training.ctorIdx ≤ old.ctorIdx →
    (allowedTransition old new = true ∨ old = .stopped ∧ new = .cold) →
    (startable old → new = .stopped) → LifecycleState.training.ctorIdx < new.ctorIdx := by
  cases old <;> cases new <;> decide

theorem inv_exec {s s' : State} {op : Op} (hs : Inv s) (hpaid : paid c s op = true)
    (h : s.exec c op = some s') : Inv s' := by
  cases op with
  | decide b now events =>
    cases h
    obtain ⟨hlaw, hidle⟩ := decision_law b now (c.startTime events)
      (one_le_qOn hpaid) fun htrain t ht => (hs.idle t ht).2.2 htrain
    refine ⟨fun t ht => ?_, restore_journal hs.journal, upheld_snoc.2 ⟨hs.law, hlaw⟩⟩
    obtain ⟨hnot, hold, hspan⟩ := hidle t ht
    refine ⟨decide_eq_false hnot, ?_, hspan⟩
    by_cases htrain : s.state = .training
    · exact htrain ▸ le_rfl
    · exact (hs.idle t (hold htrain)).2.1
  | move new =>
    obtain ⟨⟨hmove, hasked⟩, rfl⟩ := of_guard h
    refine ⟨fun t ht => ?_, hs.journal, hs.law⟩
    obtain ⟨hnot, hstate, -⟩ := hs.idle t ht
    have hnext := move_of_idle hstate hmove fun h =>
      (hasked h).resolve_right (hnot ▸ Bool.false_ne_true)
    exact ⟨hnot, le_of_lt hnext, fun h => absurd (h ▸ hnext) (lt_irrefl _)⟩
  | restart =>
    cases h
    exact ⟨fun t ht => hs.idle t (hs.journal ▸ ht), rfl, hs.law⟩

/-- In every run whose starts are paid for, all decisions are lawful, and at
any time a restored scheduler is the one that never restarted. -/
theorem decisions_sound (c : S1Config) (s : State) (h : (trainer c (paid c)).Reachable s) :
    Upheld Law s.log ∧ restore s.journal = s.idleSince := by
  have hinv : Inv s := System.guarded_invariant ⟨by rintro _ ⟨⟩, rfl, upheld_nil⟩
    (fun _ _ _ hs hpaid hexec => inv_exec hs hpaid hexec) h
  exact ⟨hinv.law, hinv.journal⟩

def half : S1Config := ⟨3, 10, some (1 / 2), some 5, false, by decide +kernel, by decide +kernel⟩

def decisionsOf (c : S1Config) (allowed : State → Op → Bool) (ops : List Op) :
    Option (List Decision) :=
  (System.play allowed (State.exec c) {} ops).map fun s => s.log.map Made.decision

/-- Started for two batches, idle for ten seconds over a restart, stopped. -/
def idleOps : List Op :=
  [.decide ⟨2, false⟩ 0 []] ++ [.acquiring, .joining, .restoring, .warming, .training].map .move
    ++ [.decide ⟨1 / 2, false⟩ 20 [], .restart, .decide ⟨0, false⟩ 30 []]

theorem decisions_sound_idle : ∃ s, System.play (paid half) (State.exec half) {} idleOps = some s
    ∧ s.log.map Made.decision = [.start, .hold, .stop .stopped] ∧ Upheld Law s.log := by
  have hruns : decisionsOf half (paid half) idleOps = some [.start, .hold, .stop .stopped] := by
    decide +kernel
  obtain ⟨s, hs, hlog⟩ := Option.map_eq_some_iff.1 hruns
  exact ⟨s, hs, hlog, (decisions_sound half s (System.reachable_play hs)).1⟩

/-- A share of 1, and a start that takes no time. -/
theorem empty_start : [(⟨3, 10, some 1, some 5, false, by decide +kernel,
        by decide +kernel⟩ : S1Config),
      ⟨3, 0, some (1 / 2), some 5, false, by decide +kernel, by decide +kernel⟩].map
    (fun c => decisionsOf c (fun _ _ => true) [.decide ⟨0, false⟩ 0 []])
      = [some [.start], some [.start]] := by decide +kernel

end Yeto.Trainer
