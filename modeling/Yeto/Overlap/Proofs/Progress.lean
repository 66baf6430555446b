/-
Every local round's progress is counted once under sync/train overlap
(`progress_once`). A push is the submission cut less the anchor. The trainer is
moved onto a broadcast `G` as `G + (trained - start)`, and `G` is the anchor:
the next push is `trained - start` again. While a sweep is applied each
fragment is before or behind its rebase (`Unmerged`, `Merged`).
-/
import Mathlib.Order.Basic
import Mathlib.Tactic.Abel
import Yeto.Lib.Guards
import Yeto.Overlap.Model

namespace Yeto.Overlap

open Lib List Island Profile

variable {P : Profile} {V : Type*} {s s' : Island P V} {f f' : Fin P.fragments} {k k' : Nat}
  {c : Candidate P V}

/-- The version sweep `k` of each fragment is computed from. -/
def Profile.base (P : Profile) (k : Nat) (f : Fin P.fragments) : Nat :=
  P.expectedBase (P.stepOf k f)

@[simp] theorem base_zero : P.base 0 f = 0 := by
  simp only [base, expectedBase, stepOf]
  omega

@[simp] theorem base_succ : P.base (k + 1) f = P.stepOf k f := by
  simp only [base, expectedBase, stepOf, Nat.succ_mul]
  omega

theorem base_lt : P.base k f < P.stepOf k f := by
  simp only [base, expectedBase, stepOf]
  omega

theorem stepOf_div : (P.stepOf k f - 1) / P.fragments = k := by
  show (k * P.fragments + f.val) / P.fragments = k
  rw [Nat.add_comm, Nat.add_mul_div_right _ _ f.pos, Nat.div_eq_of_lt f.isLt, Nat.zero_add]

theorem stepOf_inj (h : P.stepOf k f = P.stepOf k' f') : k = k' ∧ f = f' := by
  have hk : k = k' := (h ▸ stepOf_div.symm).trans stepOf_div
  subst hk
  refine ⟨rfl, Fin.ext ?_⟩
  simpa [stepOf] using h

theorem base_inj (h : P.base k f = P.base k' f) : k = k' := by
  cases k with
  | zero => cases k' <;> simp [stepOf] at h ⊢
  | succ k =>
    cases k' with
    | zero => simp [stepOf] at h
    | succ k' =>
      rw [base_succ, base_succ] at h
      exact congrArg (· + 1) (stepOf_inj h).1

/-- `_push_whole_sweep` waits for the steps of the sweep. -/
theorem mem_of_isPushed (hv : s.fragmentVersions f = P.base k f)
    (h : s.isPushed f = true) : P.stepOf k f ∈ s.inflight := by
  have ht : (if s.fragmentVersions f = 0 then f.val + 1
      else s.fragmentVersions f + P.fragments) = P.stepOf k f := by
    cases k with
    | zero => simp [hv, stepOf]
    | succ k =>
      simp only [hv, base_succ, stepOf, Nat.succ_mul]
      split <;> omega
  simpa [isPushed, ht] using h

variable [AddCommGroup V] {G : Nat → V} {ρ : Round P V}

/-- The push `c` is round `k` of the rounds `l`. -/
def Carries (l : List (Round P V)) (c : Candidate P V) (k : Nat) : Prop :=
  ∃ ρ, l[k]? = some ρ ∧ c.step = P.stepOf k c.fragment
    ∧ c.delta = ρ.change c.fragment ∧ c.cSteps = 1 ∧ c.cTokens = ρ.tokens

structure Logged (s : Island P V) : Prop where
  carries : ∀ c ∈ s.pushes, ∃ k, Carries s.rounds c k
  once : (s.pushes.map Candidate.step).Nodup
  unmerged : ∀ c ∈ s.pushes, c.step ∈ s.inflight ∨ c.step ≤ s.fragmentVersions c.fragment
  retained : s.inflight ⊆ s.pushes.map Candidate.step
  complete : ∀ k < s.rolloutId, ∀ f, ∃ c ∈ s.pushes, c.step = P.stepOf k f

theorem Logged.round_lt (h : Logged s) (hc : c ∈ s.pushes) (hstep : c.step = P.stepOf k f) :
    k < s.rounds.length ∧ c.fragment = f := by
  obtain ⟨j, ρ, hj, hs, -⟩ := h.carries c hc
  obtain ⟨rfl, rfl⟩ := stepOf_inj (hstep.symm.trans hs)
  exact ⟨(List.getElem?_eq_some_iff.1 hj).1, rfl⟩

theorem Logged.completeLocalRound (h : Logged s) (trained : Cut P V)
    (tokens : Nat) : Logged (s.completeLocalRound trained tokens) :=
  { h with
    carries := by
      intro c hc
      obtain ⟨k, ρ, hρ, hrest⟩ := h.carries c hc
      refine ⟨k, ρ, ?_, hrest⟩
      show (s.rounds ++ _)[k]? = some ρ
      rw [getElem?_append_left (List.getElem?_eq_some_iff.1 hρ).1, hρ] }

theorem Logged.submit (h : Logged s) (hc : Carries s.rounds c k)
    (hv : s.fragmentVersions c.fragment < c.step) (hnew : c.step ∉ s.inflight) : Logged { s with
      inflight := c.step :: s.inflight, pushes := c :: s.pushes } where
  carries := forall_mem_cons.2 ⟨⟨k, hc⟩, h.carries⟩
  once := by
    refine nodup_cons.2 ⟨fun hmem => ?_, h.once⟩
    obtain ⟨c', hc', hstep⟩ := mem_map.1 hmem
    obtain ⟨_, _, hs, -⟩ := hc
    have hf := (h.round_lt hc' (hstep.trans hs)).2
    have := h.unmerged c' hc'
    simp [hstep, hnew, hf] at this
    omega
  unmerged := forall_mem_cons.2 ⟨.inl mem_cons_self,
    fun c' hc' => (h.unmerged c' hc').imp_left (mem_cons_of_mem _)⟩
  retained := cons_subset_cons _ h.retained
  complete k hk f := (h.complete k hk f).imp fun _ hc => hc.imp_left (.tail _)

theorem Logged.sweep (h : Logged s) (hv : ∀ f, s.fragmentVersions f = P.base s.rolloutId f)
    (hall : ∀ f, s.isPushed f = true) : ∀ k < s.rolloutId + 1, ∀ f,
      ∃ c ∈ s.pushes, c.step = P.stepOf k f := by
  intro k hk f
  by_cases hlast : k = s.rolloutId
  · subst hlast
    exact mem_map.1 (h.retained (mem_of_isPushed (hv f) (hall f)))
  · exact h.complete k (by omega) f

/-- The fragment is on broadcast `k` with the change of the round `ρ`. -/
def Rebased (G : Nat → V) (s : Island P V) (k : Nat) (ρ : Round P V) (f : Fin P.fragments) : Prop :=
  s.current f = G (P.stepOf k f) + ρ.change f

/-- Round `k + 1` is trained while sweep `k` is in flight. -/
structure Ahead (G : Nat → V) (s : Island P V) (k : Nat) : Prop where
  rolloutId : s.rolloutId = k + 1
  length : s.rounds.length = k + 1
  pending : s.pendingSweep = some (P.base k)
  roundBase : s.roundBase = s.current
  baseCounters : s.baseCounters = s.counters
  versions : s.fragmentVersions = P.base k
  submission : s.submissionFragmentVersions = P.base k
  live : ∀ f, P.stepOf k f ∈ s.inflight
  value : ∀ j, k = j + 1 → ∃ ρ, s.rounds[k]? = some ρ ∧ ∀ f, Rebased G s j ρ f

structure Unmerged (s : Island P V) (k : Nat) (ρ : Round P V) (f : Fin P.fragments) : Prop where
  version : s.fragmentVersions f = P.base k f
  live : P.stepOf k f ∈ s.inflight
  value : s.current f = ρ.trained f

structure Merged (G : Nat → V) (s : Island P V) (k : Nat) (ρ : Round P V)
    (f : Fin P.fragments) : Prop where
  version : s.fragmentVersions f = P.stepOf k f
  value : Rebased G s k ρ f
  anchor : s.anchors f = G (P.stepOf k f)
  counters : s.anchorCounters f = s.baseCounters

/-- Round `k + 1` has ended and sweep `k` is waited for. -/
structure Waiting (G : Nat → V) (s : Island P V) (k : Nat) (ρ : Round P V) : Prop where
  rolloutId : s.rolloutId = k + 1
  length : s.rounds.length = k + 2
  last : s.rounds[k + 1]? = some ρ
  pending : s.pendingSweep = some (P.base k)
  roundBase : s.roundBase = ρ.start
  counters : s.counters = ⟨s.baseCounters.rounds + 1, s.baseCounters.tokens + ρ.tokens⟩
  submission : s.submissionFragmentVersions = P.base k
  fresh : ∀ f, P.stepOf (k + 1) f ∉ s.inflight
  fragments : ∀ f, Unmerged s k ρ f ∨ Merged G s k ρ f

structure Submittable (s : Island P V) (ρ : Round P V) (f : Fin P.fragments) : Prop where
  version : s.fragmentVersions f = P.base s.rolloutId f
  cut : s.submissionCut f = s.anchors f + ρ.change f
  counters : s.submissionCounters
    = ⟨(s.anchorCounters f).rounds + 1, (s.anchorCounters f).tokens + ρ.tokens⟩

/-- The round `ρ` is submitted. -/
structure Sweeping (G : Nat → V) (s : Island P V) (ρ : Round P V) : Prop where
  length : s.rounds.length = s.rolloutId + 1
  last : s.rounds[s.rolloutId]? = some ρ
  submission : s.submissionFragmentVersions = P.base s.rolloutId
  pending : s.pendingSweep = none
  fragments : ∀ f, Submittable s ρ f
  value : ∀ k, s.rolloutId = k + 1 → ∀ f, Rebased G s k ρ f

def Stage (G : Nat → V) (s : Island P V) : Phase → Prop
  | .training => (∃ cut, s = .initial cut) ∨ ∃ k, Ahead G s k
  | .waiting => ∃ k ρ, Waiting G s k ρ
  | .pushing => ∃ ρ, Sweeping G s ρ
  | .finished => True

structure Ok (G : Nat → V) (s : Island P V) : Prop where
  logged : Logged s
  stage : Stage G s s.phase

theorem Ok.in_phase {p : Phase} (h : Ok G s) (hp : s.phase = p) : Stage G s p := hp ▸ h.stage

theorem ok_initial (cut : Cut P V) : Ok G (.initial cut) where
  logged := by constructor <;> simp [initial]
  stage := .inl ⟨cut, rfl⟩

theorem ok_complete {trained : Cut P V} {tokens : Nat} (h : Ok G s)
    (hexec : s.exec G (.complete trained tokens) = some s') : Ok G s' := by
  have hlog := h.logged.completeLocalRound trained tokens
  obtain ⟨hphase, hexec⟩ := Option.ite_none_right_eq_some.1 hexec
  obtain ⟨cut, rfl⟩ | ⟨k, ha⟩ := h.in_phase hphase
  · cases hexec
    refine ⟨{ hlog with }, ⟨cut, trained, tokens⟩, rfl, rfl, ?_, rfl,
      fun f => ⟨base_zero.symm, ?_, rfl⟩, fun k hk => ?_⟩
    · exact funext fun f => base_zero.symm
    · show trained f = cut f + (trained f - cut f)
      abel
    · cases hk
  · rw [ha.pending] at hexec
    cases hexec
    refine ⟨{ hlog with }, k, ⟨s.current, trained, tokens⟩, ?_⟩
    exact
      { rolloutId := ha.rolloutId
        length := by simp [completeLocalRound, ha.length]
        last := by simp [completeLocalRound, ← ha.length]
        pending := ha.pending, roundBase := ha.roundBase
        counters := by simp [completeLocalRound, ha.baseCounters]
        submission := ha.submission
        fresh := by
          intro f hin
          obtain ⟨c, hc, hstep⟩ := mem_map.1 (h.logged.retained hin)
          have := (h.logged.round_lt hc hstep).1
          have := ha.length
          omega
        fragments := fun f => .inl ⟨congrFun ha.versions f, ha.live f, rfl⟩ }

theorem Submittable.carries (h : Submittable s ρ f) (hlast : s.rounds[s.rolloutId]? = some ρ) :
    Carries s.rounds (s.candidate s.rolloutId f) s.rolloutId := by
  refine ⟨ρ, hlast, rfl, ?_, ?_, ?_⟩
  · show s.submissionCut f - s.anchors f = ρ.change f
    rw [h.cut]
    abel
  all_goals simp [candidate, h.counters]

theorem ok_submit (h : Ok G s) (hexec : s.exec G (.submit k f) = some s') : Ok G s' := by
  obtain ⟨⟨hphase, hq, hnew⟩, rfl⟩ := of_guard hexec
  obtain ⟨hv, hsub, -⟩ := of_decide_eq_true hq
  change s.fragmentVersions f = P.base k f at hv
  rcases hphase with hp | hp
  · obtain ⟨j, ρ, hw⟩ := h.in_phase hp
    rw [hw.submission] at hsub
    obtain rfl := base_inj hsub
    rcases hw.fragments f with hu | hm
    · exact absurd hu.live hnew
    · have := base_lt (P := P) (k := j) (f := f)
      rw [hm.version] at hv
      omega
  · obtain ⟨ρ, hsw⟩ := h.in_phase hp
    have hs := hsw.fragments f
    rw [hsw.submission] at hsub
    obtain rfl := base_inj hsub
    refine ⟨h.logged.submit (hs.carries hsw.last) ?_ hnew, hp ▸ ⟨ρ, ?_⟩⟩
    · exact hs.version ▸ base_lt
    · exact { hsw with fragments := fun f => { hsw.fragments f with } }

/-- A broadcast takes one fragment of the sweep over its rebase and leaves
the others as they are. -/
theorem ok_apply (h : Ok G s) (hexec : s.exec G (.apply k f) = some s') : Ok G s' := by
  obtain ⟨⟨hphase, hin, hv⟩, rfl⟩ := of_guard hexec
  obtain ⟨j, ρ, hw⟩ := h.in_phase hphase
  have hmono : s.fragmentVersions ≤ Function.update s.fragmentVersions f (P.stepOf k f) :=
    le_update_iff.2 ⟨hv.trans_le base_lt.le, fun _ _ => le_rfl⟩
  have hrest : ∀ t, t ≠ P.stepOf k f → t ∈ s.inflight → t ∈ s.inflight.erase (P.stepOf k f) :=
    fun t hne => (mem_erase_of_ne hne).2
  refine ⟨{ h.logged with unmerged := fun c hc => ?_, retained := ?_ }, ?_⟩
  · by_cases hceq : c.step = P.stepOf k f
    · obtain rfl := (h.logged.round_lt hc hceq).2
      simp [applyStagedBroadcast, hceq]
    · exact (h.logged.unmerged c hc).imp (hrest _ hceq) fun hle =>
        hle.trans (hmono _)
  · exact fun c hc => h.logged.retained (mem_of_mem_erase hc)
  rcases hw.fragments f with hu | hm
  · obtain rfl := base_inj (hv.symm.trans hu.version)
    refine hphase ▸ ⟨k, ρ, { hw with
      fresh := fun f' hf' => hw.fresh f' (mem_of_mem_erase hf')
      fragments := fun f' => ?_ }⟩
    by_cases hf : f' = f
    · subst hf
      right
      constructor <;> simp [applyStagedBroadcast, Rebased, Round.change, hu.value, hw.roundBase]
    · refine (hw.fragments f').imp (fun hu => ?_) fun hm => ?_
      · obtain ⟨hver, hlive, hval⟩ := hu
        refine ⟨?_, hrest _ (fun heq => hf (stepOf_inj heq).2) hlive, ?_⟩
          <;> simpa [applyStagedBroadcast, hf]
      · obtain ⟨hver, hval, hanchor, hcounters⟩ := hm
        constructor <;> simpa [applyStagedBroadcast, Rebased, hf]
  · -- the next sweep of the fragment has not been pushed
    rw [hm.version, ← base_succ] at hv
    exact absurd (base_inj hv ▸ hin) (hw.fresh f)

/-- All of the sweep is applied: round `k + 1` is the next submission. -/
theorem ok_applied (h : Ok G s) (hexec : s.exec G .applied = some s') : Ok G s' := by
  simp only [exec] at hexec
  split at hexec
  · cases hexec
  next before hpend =>
  obtain ⟨⟨hphase, hall⟩, rfl⟩ := of_guard hexec
  obtain ⟨k, ρ, hw⟩ := h.in_phase hphase
  cases hpend.symm.trans hw.pending
  have hmerged : ∀ f, Merged G s k ρ f := by
    intro f
    have := all_eq_true.1 hall f (mem_finRange f)
    rcases hw.fragments f with hu | hm
    · simp [hu.version] at this
    · exact hm
  have hvers : s.fragmentVersions = P.base s.rolloutId := by
    funext f
    rw [hw.rolloutId, base_succ, (hmerged f).version]
  refine ⟨{ h.logged with }, ρ, ?_, ?_, hvers, rfl,
    fun f => ⟨congrFun hvers f, ?_, ?_⟩, fun j hj f => ?_⟩
  · exact hw.length.trans (congrArg (· + 1) hw.rolloutId.symm)
  · exact (congrArg _ hw.rolloutId).trans hw.last
  · show s.current f = s.anchors f + ρ.change f
    rw [(hmerged f).anchor, (hmerged f).value]
  · have hcounters := hw.counters
    rwa [← (hmerged f).counters] at hcounters
  · cases hw.rolloutId.symm.trans hj
    exact (hmerged f).value

theorem ok_pushed (h : Ok G s) (hexec : s.exec G .pushed = some s') : Ok G s' := by
  obtain ⟨⟨hphase, hall⟩, hexec⟩ := Option.ite_none_right_eq_some.1 hexec
  have hall := fun f => all_eq_true.1 hall f (mem_finRange f)
  obtain ⟨ρ, hsw⟩ := h.in_phase hphase
  have hvers := fun f => (hsw.fragments f).version
  have hsweep := h.logged.sweep hvers hall
  split at hexec <;> cases hexec
  · exact ⟨{ h.logged with complete := hsweep }, trivial⟩
  · refine ⟨{ h.logged with complete := hsweep }, .inr ⟨s.rolloutId, ?_⟩⟩
    exact
      { rolloutId := rfl, length := hsw.length
        pending := congrArg some (funext hvers), roundBase := rfl
        baseCounters := rfl, versions := funext hvers
        submission := hsw.submission
        live := fun f => mem_of_isPushed (hvers f) (hall f)
        value := fun j hj => ⟨ρ, hsw.last, hsw.value j hj⟩ }

theorem ok_of_reachable {cut : Cut P V} (h : (system G cut).Reachable s) : Ok G s := by
  refine System.guarded_invariant (ok_initial cut) ?_ h
  intro s s' op hs _ hexec
  cases op with
  | complete => exact ok_complete hs hexec
  | submit => exact ok_submit hs hexec
  | apply => exact ok_apply hs hexec
  | applied => exact ok_applied hs hexec
  | pushed => exact ok_pushed hs hexec

/-- Each push is the change of one local round with that round's counts,
each round is pushed once for each fragment before the next one is trained
(the last one before the end), and a round starts from the broadcast two
rounds before it and the change of the round before it. -/
theorem progress_once {cut : Cut P V} (h : (system G cut).Reachable s) :
    (∀ c ∈ s.pushes, ∃ k, Carries s.rounds c k) ∧ (s.pushes.map Candidate.step).Nodup
      ∧ (∀ k < s.rolloutId, ∀ f, ∃ c ∈ s.pushes, c.step = P.stepOf k f)
      ∧ ∀ k, s.phase = .training → s.rolloutId = k + 2 → ∃ ρ, s.rounds[k + 1]? = some ρ
          ∧ ∀ f, s.current f = G (P.stepOf k f) + ρ.change f := by
  have hok := ok_of_reachable h
  refine ⟨hok.logged.carries, hok.logged.once, hok.logged.complete, ?_⟩
  intro k hphase hk
  obtain ⟨cut, rfl⟩ | ⟨j, ha⟩ := hok.in_phase hphase
  · cases hk
  · cases ha.rolloutId.symm.trans hk
    exact ha.value k rfl

def sampleProfile : Profile := ⟨2, 3⟩

def sampleBroadcast (t : Nat) : Int := 10 * t

def sampleCut (a b : Int) : Cut sampleProfile Int := fun f => if f.val = 0 then a else b

def lower : Fin sampleProfile.fragments := ⟨0, Nat.two_pos⟩

def upper : Fin sampleProfile.fragments := ⟨1, Nat.one_lt_two⟩

/-- Two rounds; the broadcasts of the first sweep come last one first. -/
def sampleOps : List (Op sampleProfile Int) :=
  [.complete (sampleCut 1 2) 5, .submit 0 lower, .submit 0 upper, .pushed,
    .complete (sampleCut 4 6) 7, .apply 0 upper, .apply 0 lower, .applied,
    .submit 1 lower, .submit 1 upper, .pushed]

theorem progress_of_two_rounds : ∃ s : Island sampleProfile Int,
    (system sampleBroadcast (sampleCut 0 0)).Reachable s ∧ s.phase = .training
      ∧ s.pushes.map Candidate.delta = [4, 3, 2, 1] ∧ (s.pushes.map Candidate.step).Nodup
      ∧ ∃ ρ, s.rounds[1]? = some ρ ∧ ∀ f, s.current f
        = sampleBroadcast (sampleProfile.stepOf 0 f) + ρ.change f := by
  obtain ⟨s, hr, hphase, hid, hpushes⟩ : ∃ s, (system sampleBroadcast (sampleCut 0 0)).Reachable s
      ∧ s.phase = .training ∧ s.rolloutId = 2 ∧ s.pushes.map Candidate.delta = [4, 3, 2, 1] :=
    System.exists_reachable sampleOps (by decide +kernel)
  obtain ⟨-, honce, -, hvalue⟩ := progress_once hr
  exact ⟨s, hr, hphase, hpushes, honce, hvalue 0 hphase hid⟩

end Yeto.Overlap
