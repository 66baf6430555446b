/-
What the functions on rounds do, one lemma each: who a quiet move leaves
in a round, what an accepted push and a carried delta change, and what a
prepared merge is of.

A fold takes the gradient out of the push it folds, so pushes are compared
by `Push.taken`, which forgets the gradient.
-/
import Yeto.Server.Proofs.Step

namespace Yeto.Server

open Lib List RoundFold

variable {push : Push} {m : Member} {rounds rounds' : List Round} {limit : Nat}

namespace Round

variable {cfg : Config} {r r' : Round}

/-- The round is the same attempt with the same answers and deltas. -/
structure SameWork (r r' : Round) : Prop where
  t : r'.t = r.t
  p : r'.p = r.p
  baseVersion : r'.baseVersion = r.baseVersion
  attempt : r'.attempt = r.attempt
  quorumSize : r'.quorumSize = r.quorumSize
  capacityQuorum : r'.capacityQuorum = r.capacityQuorum
  softMin : r'.softMin = r.softMin
  softDeadline : r'.softDeadline = r.softDeadline
  fold : r'.fold = r.fold
  pushes : r'.pushes = r.pushes
  carried : r'.carried = r.carried

theorem SameWork.refl (r : Round) : SameWork r r :=
  ⟨rfl, rfl, rfl, rfl, rfl, rfl, rfl, rfl, rfl, rfl, rfl⟩

theorem SameWork.trans {r'' : Round} (h : SameWork r r') (h' : SameWork r' r'') : SameWork r r'' :=
  ⟨h'.t.trans h.t, h'.p.trans h.p, h'.baseVersion.trans h.baseVersion,
    h'.attempt.trans h.attempt, h'.quorumSize.trans h.quorumSize,
    h'.capacityQuorum.trans h.capacityQuorum, h'.softMin.trans h.softMin,
    h'.softDeadline.trans h.softDeadline, h'.fold.trans h.fold,
    h'.pushes.trans h.pushes, h'.carried.trans h.carried⟩

theorem sameWork_forgetUnanswered (r : Round) (m : Member) : SameWork r (r.forgetUnanswered m) := by
  unfold forgetUnanswered
  split <;> exact { SameWork.refl r with }

theorem sameWork_forgetAll {ms : List Member} :
    ∀ r : Round, SameWork r (ms.foldl forgetUnanswered r) := by
  induction ms with
  | nil => exact fun r => .refl r
  | cons m ms ih => exact fun r => (sameWork_forgetUnanswered r m).trans (ih _)

theorem sameWork_rebind {reg : RegistryState} (m : Member) (r : Round) :
    SameWork r (r.rebind reg m) := by
  unfold rebind
  repeat' split
  all_goals exact { SameWork.refl r with }

theorem sameWork_arm {now : Nat} {grace : Nat} : SameWork r (Syncer.armRound now grace r) := by
  unfold Syncer.armRound
  split <;> exact { SameWork.refl r with }

theorem sameWork_quiet {reg : RegistryState} (h : Syncer.Quiet reg r r') : SameWork r r' := by
  cases h with
  | same => exact .refl r
  | forget now => exact sameWork_forgetAll r
  | rebind m => exact sameWork_rebind m r
  | arm now grace => exact sameWork_arm
  | defer deadline => exact { SameWork.refl r with }

/-- The same answers, up to the gradients the fold took. -/
def SameAnswers (pushes pushes' : SortedMap Member Push) : Prop :=
  ∀ m, (pushes'.find m).map Push.taken = (pushes.find m).map Push.taken

theorem sameAnswers_taken {pushes : SortedMap Member Push} (h : pushes.find m = some push) :
    SameAnswers pushes (pushes.insert m push.taken) := by
  intro x
  rw [SortedMap.find_insert]
  split
  · next hx =>
    rw [hx, h]
    rfl
  · rfl

theorem find_of_find? {pushes : SortedMap Member Push}
    {q : Member × Push → Bool} (h : pushes.entries.find? q = some (m, push)) :
    pushes.find m = some push ∧ q (m, push) = true :=
  ⟨(pushes.mem_entries_iff m push).1 (mem_of_find?_eq_some h), find?_some h⟩

theorem sameAnswers_advanceExact {fuel : Nat} :
    ∀ (fold : FragmentFold) (pushes : SortedMap Member Push),
      SameAnswers pushes (advanceExact fuel fold pushes).2 := by
  induction fuel with
  | zero => exact fun _ _ _ => rfl
  | succ fuel ih =>
    intro fold pushes
    unfold advanceExact
    split
    · exact fun _ => rfl
    next id _ =>
    split
    · exact fun _ => rfl
    next m push hfind =>
    have htaken := sameAnswers_taken (find_of_find? hfind).1
    split
    · exact htaken
    · exact fun x => (ih _ _ x).trans (htaken x)

theorem advanceFold_spec (cfg : Config) {r : Round} (m : Member) :
    ∃ fold pushes, r.advanceFold cfg m = { r with fold, pushes } ∧ SameAnswers r.pushes pushes := by
  unfold advanceFold
  split
  · exact ⟨r.fold, r.pushes, rfl, fun _ => rfl⟩
  · next fold _ => exact ⟨_, _, rfl, sameAnswers_advanceExact fold r.pushes⟩
  · next fold _ =>
    split
    · exact ⟨r.fold, r.pushes, rfl, fun _ => rfl⟩
    · split
      · exact ⟨r.fold, r.pushes, rfl, fun _ => rfl⟩
      · next push hpush => exact ⟨_, _, rfl, sameAnswers_taken hpush⟩

/-- The checks an accepted push went through. -/
structure Accepts (cfg : Config) (m : Member) (push : Push) (r : Round) : Prop where
  names : r.t = push.globalStep ∧ r.p = push.fragmentId ∧ r.attempt = push.roundAttempt
  expected : r.expects cfg m = true
  base : push.baseVersion ≤ r.baseVersion
  lag : ∀ limit, cfg.maxBaseLag = some limit → r.baseVersion - push.baseVersion ≤ limit
  first : r.hasAnswer cfg m = false

theorem takePush_accepted (hnames : isAnsweredBy push r = true)
    (h : r.takePush cfg m push = (.accepted, r')) : Accepts cfg m push r
      ∧ r' = advanceFold cfg { r with pushes := r.pushes.insert m push } m := by
  unfold takePush at h
  split at h
  · cases h
  next hexp =>
  split at h
  · cases h
  next hbase =>
  split at h
  · cases h
  next hlag =>
  split at h
  · cases h
  next hdup =>
  cases h
  refine ⟨⟨of_decide_eq_true hnames, ?_, Nat.le_of_not_lt hbase, ?_, Bool.eq_false_iff.2 hdup⟩, rfl⟩
  · simpa using hexp
  · intro limit hlimit
    simpa [hlimit] using hlag

theorem routePush_accepted (h : routePush cfg rounds m push = (.accepted, rounds')) :
    ∃ l₁ r l₂, rounds = l₁ ++ r :: l₂ ∧ Accepts cfg m push r ∧ rounds' = l₁ ++ advanceFold cfg
          { r with pushes := r.pushes.insert m push } m :: l₂ := by
  unfold routePush at h
  cases hu : updateFirst (isAnsweredBy push) (takePush cfg m push) rounds with rw [hu] at h
  | none => cases h
  | some res =>
    have hres : res = (.accepted, rounds') := h
    subst hres
    obtain ⟨l₁, r, l₂, hl, -, hq, hd, hl'⟩ := updateFirst_eq_some hu
    obtain ⟨hacc, hr'⟩ := takePush_accepted hq (Prod.ext hd.symm rfl)
    refine ⟨l₁, r, l₂, hl, hacc, ?_⟩
    rw [hl']
    exact congrArg (fun x => l₁ ++ x :: l₂) hr'

/-- A carried delta is added, in a round that does not fold exactly and is
not too far ahead of it; or the round stays. -/
theorem attachCarry_spec :
    (attachCarry limit m push r).2 = r ∧ (∃ d, (attachCarry limit m push r).1 = .error d)
      ∨ r.fold.any isExact = false ∧ push.baseVersion ≤ r.baseVersion
        ∧ (attachCarry limit m push r).2 = { r with carried := r.carried ++ [(m, push)] } := by
  unfold attachCarry
  split
  · exact .inl ⟨rfl, _, rfl⟩
  next hexact =>
  split
  · exact .inl ⟨rfl, _, rfl⟩
  next hbase =>
  split
  · exact .inl ⟨rfl, _, rfl⟩
  · exact .inr ⟨Bool.eq_false_iff.2 hexact, Nat.le_of_not_lt hbase, rfl⟩

theorem attachAll_spec {es : List (Member × Push)} : ∀ r : Round, ∃ late, List.Sublist late es
      ∧ es.foldl (fun r e => (attachCarry limit e.1 e.2 r).2) r
        = { r with carried := r.carried ++ late } ∧ (late ≠ [] → r.fold.any isExact = false)
      ∧ ∀ e ∈ late, e.2.baseVersion ≤ r.baseVersion := by
  induction es with intro r
  | nil => exact ⟨[], .slnil, by simp, fun h => absurd rfl h, by simp⟩
  | cons e es ih =>
    rw [foldl_cons]
    rcases attachCarry_spec with ⟨hr, -⟩ | ⟨hx, hb, hr⟩ <;> rw [hr]
    · obtain ⟨late, hsub, heq, hfold, hbase⟩ := ih r
      exact ⟨late, hsub.cons e, heq, hfold, hbase⟩
    · obtain ⟨late, hsub, heq, -, hbase⟩ := ih { r with carried := r.carried ++ [(e.1, e.2)] }
      refine ⟨e :: late, hsub.cons_cons e, ?_, fun _ => hx, ?_⟩
      · rw [heq]
        simp
      · rintro x (_ | ⟨_, hx'⟩)
        · exact hb
        · exact hbase x hx'

end Round

open Round Syncer

theorem attachLate_spec {c : Option LateCarry} (r : Round) :
    ∃ late, (attachLate c r).2 = { r with carried := r.carried ++ late }
      ∧ (late ≠ [] → r.fold.any isExact = false) ∧ (∀ e ∈ late, e.2.baseVersion ≤ r.baseVersion)
      ∧ ∀ e ∈ late, ∃ c', c = some c' ∧ e ∈ (c'.queued.find r.p).getD [] := by
  cases c with
  | none => exact ⟨[], by simp [attachLate], fun h => absurd rfl h, by simp, by simp⟩
  | some c =>
    obtain ⟨late, hsub, heq, hfold, hbase⟩ := attachAll_spec r
    exact ⟨late, heq, hfold, hbase, fun e he => ⟨c, rfl, hsub.subset he⟩⟩

theorem attachLate_fst (c : Option LateCarry) (r : Round) :
    (attachLate c r).1 = c.map fun c => { c with queued := c.queued.erase r.p } := by
  cases c <;> rfl

/-- A late push that is carried is of a launched step no round of which is
open, is not ahead of its fragment, and is no delta its own round gathered
before. It enters one open round of its fragment, or is queued. -/
theorem carry_taken {c c' : LateCarry} {nextT current : Nat} {outcome : CarryOutcome}
    (h : c.carry rounds m push nextT current = (outcome, c', rounds'))
    (hout : ∀ d, outcome ≠ .rejected d) : push.globalStep < nextT
      ∧ (∀ r ∈ rounds, ¬ (r.t = push.globalStep ∧ r.p = push.fragmentId))
      ∧ push.baseVersion ≤ current
      ∧ (∀ taken, c.gathered.find (anchorKey m push.fragmentId) = some taken →
          taken < push.baseVersion) ∧ ((∃ l₁ r l₂, rounds = l₁ ++ r :: l₂ ∧ r.p = push.fragmentId
            ∧ r.fold.any isExact = false ∧ push.baseVersion ≤ r.baseVersion ∧ c' = c ∧ rounds' = l₁
              ++ { r with carried := r.carried ++ [(m, push)] } :: l₂)
        ∨ rounds' = rounds ∧ c' = { c with
            queued := c.queued.insert push.fragmentId
              ((c.queued.find push.fragmentId).getD [] ++ [(m, push)]) }) := by
  dsimp only [LateCarry.carry] at h
  split at h
  · cases h
    exact absurd rfl (hout _)
  next hnew =>
  push Not at hnew
  split at h
  · cases h
    exact absurd rfl (hout _)
  next hcur =>
  split at h
  · cases h
    exact absurd rfl (hout _)
  next hgath =>
  split at h
  · cases h
    exact absurd rfl (hout _)
  refine ⟨hnew.1, ?_, Nat.le_of_not_lt hcur, ?_, ?_⟩
  · intro r hr hrp
    exact hnew.2 (any_eq_true.2 ⟨r, hr, decide_eq_true hrp⟩)
  · intro taken htaken
    rw [htaken] at hgath
    simpa using hgath
  · split at h
    · next lag step inflight hu =>
      cases h
      obtain ⟨l₁, r, l₂, hl, -, hq, hd, hl'⟩ := updateFirst_eq_some hu
      have hp := (of_decide_eq_true hq).1
      rcases attachCarry_spec with ⟨-, d, hd'⟩ | ⟨hx, hb, hr⟩
      · rw [hd'] at hd
        cases hd
      · rw [hr] at hl'
        exact .inl ⟨l₁, r, l₂, hl, hp, hx, hb, rfl, hl'⟩
    · cases h
      exact absurd rfl (hout _)
    · cases h
      exact .inr ⟨rfl, rfl⟩

theorem prepareRoundCompute_ok {cfg : Config} {versions : List Nat} {r : Round}
    {prepared : Round × PreparedMerge} (h : prepareRoundCompute cfg versions r = .ok prepared) :
    versions[r.p]? = some r.baseVersion ∧ prepared.2 = ⟨r.p, r.baseVersion⟩
      ∧ (prepared.1 = r ∨ ∃ carried, prepared.1 = { r with fold := none, carried }
        ∧ carried.map (fun e => (e.1, e.2.taken)) = r.carried.map fun e => (e.1, e.2.taken)) := by
  have hmerge : ∀ pushes merge, prepareMergeScaled cfg r pushes = .ok merge →
      merge = ⟨r.p, r.baseVersion⟩ := by
    intro pushes merge hm
    unfold prepareMergeScaled at hm
    split at hm
    · cases hm
    · repeat' split at hm
      all_goals first
        | cases hm; done
        | cases hm; rfl
  unfold prepareRoundCompute at h
  split at h
  · cases h
  next hbase =>
  push Not at hbase
  dsimp only at h
  split at h
  · cases h
  split at h
  · split at h <;> cases h
    next merge hm => exact ⟨hbase, hmerge _ _ hm, .inl rfl⟩
  · split at h
    · cases h
    split at h
    · cases h
    · split at h <;> cases h
      refine ⟨hbase, rfl, .inr ⟨_, rfl, ?_⟩⟩
      rw [map_map]
      rfl

end Yeto.Server
