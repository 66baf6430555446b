/-
The reduction of a round and its late deltas.

A round folds its pushes EXACTLY, in learner order, when every expected learner
must answer with the same weight, or STREAMING, in arrival order. A round that
folds exactly takes no late delta. Whether it does is decided at the launch and
again at every restart, while the late deltas of the earlier attempt stay: then
the scheduler may stop with an error (`carried_needs_streaming`). As long as no
restart gives an exact fold to a round with late deltas, a preparation does not
fail for its deltas or its fold (`carried_never_abort`).
-/
import Yeto.Server.Proofs.Carry

namespace Yeto.Server

open Lib Downlink List SortedMap Member FragmentFold Server.Group RoundFold Round

variable {failure : Failure} {fragment : FragmentInfo} {push q : Push} {reg : RegistryState}
  {id : U32}

/-- A failure of the reduction: its fold, its late deltas, the shapes. -/
def Failure.ofFold : Failure → Bool
  | .missingTags | .foldCoverage | .carriedNeedStreaming | .carriedFold
  | .foldFinish | .mergeShape => true
  | _ => false

/-- The push is one of fragment `p` and decodes on a connection of `m`. -/
def Push.Whole (cfg : Config) (m : Member) (p : Nat) (push : Push) : Prop :=
  push.fragmentId = p ∧ push.decodes cfg m = true

variable {m : Member} {p : Nat}

theorem Push.Whole.shape {cfg : Config} (h : push.Whole cfg m p) :
    ∃ fragment, cfg.layout[p]? = some fragment ∧ push.gradient = fragment.numel
      ∧ push.tensorScales = if cfg.expertTokenWeights
        then some fragment.tensorNumels.length else none := by
  obtain ⟨rfl, hdec⟩ := h
  unfold Push.decodes at hdec
  simp only [Bool.and_eq_true] at hdec
  obtain ⟨fragment, hfrag, hshape⟩ := (Option.any_eq_true _ _).1 hdec.2
  simp only [Bool.and_eq_true, decide_eq_true_eq] at hshape
  exact ⟨fragment, hfrag, hshape.1, hshape.2⟩

theorem Push.Whole.shape_of {cfg : Config} (h : push.Whole cfg m p)
    (hfrag : cfg.layout[p]? = some fragment) : push.gradient = fragment.numel ∧ push.tensorScales
      = if cfg.expertTokenWeights then some fragment.tensorNumels.length
        else none := by
  obtain ⟨other, hother, hshape⟩ := h.shape
  rw [hfrag] at hother
  cases hother
  exact hshape

/-- A fold that has taken a prefix of its learners, all of whom answered;
the other pushes have their gradients. -/
structure Folding (numel : Nat) (f : FragmentFold) (pushes : SortedMap Member Push) : Prop where
  failure : f.failure = false
  length : f.numel = numel
  nodup : f.order.Nodup
  bound : f.folded ≤ f.order.length
  distinct : ∀ m m' q q', pushes.find m = some q → pushes.find m' = some q' →
    m.learnerId = m'.learnerId → m = m'
  folded : ∀ id ∈ f.order.take f.folded, ∃ m q, pushes.find m = some q ∧ m.learnerId = id
  whole : ∀ m q, pushes.find m = some q → m.learnerId ∉ f.order.take f.folded → q.gradient = numel

def Waiting (f : FragmentFold) (pushes : SortedMap Member Push) : Prop :=
  ∀ id, f.order[f.folded]? = some id → ∀ m q, pushes.find m = some q → m.learnerId ≠ id

theorem take_succ_of_getElem? {α : Type*} {l : List α} {k : Nat} {a : α}
    (h : l[k]? = some a) : l.take (k + 1) = l.take k ++ [a] := by
  rw [take_add_one, h]
  rfl

variable {pushes : SortedMap Member Push} {f : FragmentFold} {numel : Nat}

theorem folding_next (h : Folding numel f pushes) (hid : f.order[f.folded]? = some id)
    (hq : pushes.find m = some q) (hm : m.learnerId = id) :
    Folding numel { f with folded := f.folded + 1 } (pushes.insert m q.taken) := by
  obtain ⟨hlt, hget⟩ := List.getElem?_eq_some_iff.1 hid
  have htake := take_succ_of_getElem? hid
  refine ⟨h.failure, h.length, h.nodup, hlt, ?_, ?_, ?_⟩
  · intro x x' a a' hx hx' hids
    obtain ⟨rfl, -⟩ | ⟨-, hy⟩ := find_insert_cases hx <;>
      obtain ⟨rfl, -⟩ | ⟨-, hy'⟩ := find_insert_cases hx'
    · rfl
    · exact h.distinct _ _ _ _ hq hy' hids
    · exact h.distinct _ _ _ _ hy hq hids
    · exact h.distinct _ _ _ _ hy hy' hids
  · intro i hi
    rw [htake, mem_append, mem_singleton] at hi
    rcases hi with hi | rfl
    · obtain ⟨x, b, hx, hxi⟩ := h.folded i hi
      by_cases heq : x = m
      · exact ⟨m, q.taken, find_insert_self _ _ _, heq ▸ hxi⟩
      · exact ⟨x, b, by rwa [find_insert_ne _ _ heq], hxi⟩
    · exact ⟨m, q.taken, find_insert_self _ _ _, hm⟩
  · intro x b hx hnot
    rw [htake, mem_append, not_or, mem_singleton] at hnot
    obtain ⟨rfl, -⟩ | ⟨-, hx⟩ := find_insert_cases hx
    · exact absurd hm hnot.2
    · exact h.whole x b hx hnot.1

theorem advanceExact_spec (fuel : Nat) : ∀ (f : FragmentFold) (pushes : SortedMap Member Push),
      Folding numel f pushes → f.order.length ≤ f.folded + fuel →
      Folding numel (advanceExact fuel f pushes).1 (advanceExact fuel f pushes).2
        ∧ (advanceExact fuel f pushes).1.order = f.order ∧ Waiting (advanceExact fuel f pushes).1
          (advanceExact fuel f pushes).2 := by
  induction fuel with intro f pushes h hfuel
  | zero =>
    refine ⟨h, rfl, fun id hid => ?_⟩
    obtain ⟨hlt, -⟩ := List.getElem?_eq_some_iff.1 hid
    dsimp only [advanceExact] at hlt
    omega
  | succ fuel ih =>
    have hnext : f.nextLearner = f.order[f.folded]? := by
      unfold nextLearner
      rw [h.failure]
      rfl
    unfold advanceExact
    rw [hnext]
    split
    · next hnone =>
      refine ⟨h, rfl, fun id hid => ?_⟩
      rw [hnone] at hid
      cases hid
    · next id hid =>
      split
      · next hfind =>
        refine ⟨h, rfl, fun id' hid' x b hx => ?_⟩
        rw [hid] at hid'
        cases hid'
        have := List.find?_eq_none.1 hfind (x, b) ((pushes.mem_entries_iff x b).2 hx)
        simpa using this
      · next m q hfind =>
        obtain ⟨hq, hm⟩ := find_of_find? hfind
        have hm : m.learnerId = id := of_decide_eq_true hm
        -- The learner is not folded yet, so its gradient is there.
        have hnot : m.learnerId ∉ f.order.take f.folded := by
          rw [hm]
          intro hmem
          have htake := h.nodup.sublist (take_sublist (f.folded + 1) _)
          rw [take_succ_of_getElem? hid] at htake
          exact (nodup_append.1 htake).2.2 id hmem id (mem_singleton_self id) rfl
        have hstep : f.foldNext id q.gradient = some { f with folded := f.folded + 1 } := by
          unfold foldNext
          rw [hnext, hid]
          dsimp only
          rw [if_neg (not_not.2 rfl), if_neg (not_not.2 _)]
          rw [h.length]
          exact h.whole m q hq hnot
        rw [hstep]
        exact ih _ _ (folding_next h hid hq hm) (by dsimp only; omega)

namespace Round

variable {cfg : Config} {r r' : Round} {now : Nat} {expected : List Member} {fold : RoundFold}

/-- A round that folds exactly: everyone must answer, and the fold is as
far as the answers allow. -/
structure ExactOk (cfg : Config) (r : Round) (f : FragmentFold) : Prop where
  carried : r.carried = []
  folding : ∃ fragment, cfg.layout[r.p]? = some fragment ∧ Folding fragment.numel f r.pushes
  order : f.order.Perm (r.expectedMembers.map Member.learnerId)
  sorted : f.order.Pairwise (· ≤ ·)
  everyone : r.expectedMembers.length ≤ r.quorumSize
  soft : r.softDeadline = none
  waiting : Waiting f r.pushes

/-- A round that folds in arrival order has folded every answer. -/
structure StreamingOk (cfg : Config) (r : Round) (f : StreamingFold) : Prop where
  failure : f.failure = false
  numel : ∃ fragment, cfg.layout[r.p]? = some fragment ∧ f.numel = fragment.numel
  folded : f.folded.Perm (r.pushes.keys.map Member.learnerId)

/-- The reduction of an open round. -/
structure FoldOk (cfg : Config) (r : Round) : Prop where
  carried : ∀ e ∈ r.carried, e.2.Whole cfg e.1 r.p
  rule : r.capacityQuorum = cfg.membership.roundQuorum
  buffered : r.fold = none → ∀ m q, r.pushes.find m = some q → q.Whole cfg m r.p
  folds : r.fold ≠ none → cfg.membership = .default ∧ cfg.expertTokenWeights = false
  exact : ∀ f, r.fold = some (.exact f) → ExactOk cfg r f
  streaming : ∀ f, r.fold = some (.streaming f) → StreamingOk cfg r f

/-- The fold that a round is given. -/
theorem roundFold_spec {quorum : Nat} (h : roundFold cfg p expected quorum = some fold) :
    (cfg.membership = .default ∧ cfg.expertTokenWeights = false)
      ∧ ∃ fragment, cfg.layout[p]? = some fragment
      ∧ ((∃ f, fold = .exact f ∧ expected.length ≤ quorum
          ∧ forEqualFullRoster fragment (expected.map learnerId) = some f)
        ∨ fold = .streaming ⟨[], fragment.numel, false⟩) := by
  unfold roundFold at h
  split at h
  · cases h
  next hplain =>
  simp only [Bool.or_eq_true, not_or, Bool.not_eq_true, Bool.not_eq_false'] at hplain
  refine ⟨⟨of_decide_eq_true hplain.1.2, hplain.2⟩, ?_⟩
  split at h
  · cases h
  next fragment hfrag =>
  refine ⟨fragment, hfrag, ?_⟩
  dsimp only at h
  split at h
  · next f hfold =>
    cases h
    split at hfold
    · next hall => exact .inl ⟨f, rfl, hall.1, hfold⟩
    · cases hfold
  split at h
  · cases h
  · obtain ⟨g, hg, rfl⟩ := Option.map_eq_some_iff.1 h
    obtain ⟨-, rfl⟩ := of_guard hg
    exact .inr rfl

theorem forEqualFullRoster_spec {roster : List U32}
    (h : forEqualFullRoster fragment roster = some f) :
    f.order = (roster.insertionSort (· ≤ ·)).dedup ∧ f.folded = 0
      ∧ f.numel = fragment.numel ∧ f.failure = false := by
  obtain ⟨-, h⟩ := Option.ite_none_left_eq_some.1 h
  obtain ⟨-, rfl⟩ := of_guard h
  exact ⟨rfl, rfl, rfl, rfl⟩

theorem foldOk_fresh (hpushes : r.pushes = .empty)
    (hfold : r.fold = roundFold cfg r.p r.expectedMembers r.quorumSize)
    (hrule : r.capacityQuorum = cfg.membership.roundQuorum)
    (hsoft : cfg.membership.softDeadline = none → r.softDeadline = none)
    (hids : (r.expectedMembers.map learnerId).Nodup)
    (hcarried : ∀ e ∈ r.carried, e.2.Whole cfg e.1 r.p)
    (hexact : r.fold.any isExact = true → r.carried = []) : FoldOk cfg r := by
  have hno : ∀ m q, r.pushes.find m ≠ some q := by
    rw [hpushes]
    nofun
  refine ⟨hcarried, hrule, fun _ m q hm => absurd hm (hno m q), ?_, ?_, ?_⟩
  · intro h
    obtain ⟨fold, hsome⟩ := Option.ne_none_iff_exists'.1 h
    exact (roundFold_spec (hfold.symm.trans hsome)).1
  · intro f hf
    obtain ⟨⟨hstatic, -⟩, fragment, hfrag, ⟨_, ⟨⟩, hall, hroster⟩ | hstream⟩ :=
      roundFold_spec (hfold.symm.trans hf)
    swap
    · cases hstream
    obtain ⟨horder, hzero, hnumel, hfailure⟩ := forEqualFullRoster_spec hroster
    have hperm := (r.expectedMembers.map learnerId).perm_insertionSort (· ≤ ·)
    rw [(hperm.nodup_iff.2 hids).dedup] at horder
    refine ⟨hexact (by rw [hf]; rfl), ⟨fragment, hfrag, ?_⟩, ?_, ?_, hall,
      hsoft (by rw [hstatic]; rfl), ?_⟩
    · refine ⟨hfailure, hnumel, ?_, by omega, ?_, ?_, ?_⟩
      · rw [horder]
        exact hperm.nodup_iff.2 hids
      · exact fun m _ q _ hm => absurd hm (hno m q)
      · intro id hid
        rw [hzero] at hid
        cases hid
      · exact fun m q hm => absurd hm (hno m q)
    · rw [horder]
      exact hperm
    · rw [horder]
      exact pairwise_insertionSort _ _
    · exact fun _ _ m q hm => absurd hm (hno m q)
  · intro f hf
    obtain ⟨-, fragment, hfrag, ⟨_, ⟨⟩, -⟩ | hstream⟩ := roundFold_spec (hfold.symm.trans hf)
    cases hstream
    refine ⟨rfl, ⟨fragment, hfrag, rfl⟩, ?_⟩
    rw [hpushes]
    exact .nil

theorem ids_quiet (hlease : reg.membership.cfg.lease = none) (h : Syncer.Quiet reg r r') :
    (r'.expectedMembers.map learnerId).Perm (r.expectedMembers.map learnerId) := by
  cases h with
  | forget now =>
    have hgone : reg.membership.gone now = [] := by
      unfold Membership.gone
      rw [hlease]
    rw [hgone]
    exact .refl _
  | rebind m =>
    unfold rebind
    split
    · exact .refl _
    split
    · exact .refl _
    · next old hold =>
      split
      · exact .refl _
      · refine ((perm_insertionSort _ _).map _).trans ?_
        rw [map_replace_ids (find_slot hold).1.symm]
  | arm now grace =>
    unfold Syncer.armRound
    split <;> exact .refl _
  | same | defer => exact .refl _

theorem foldOk_quiet (hcfg : reg.membership.cfg = cfg.membership) (h : FoldOk cfg r)
    (hq : Syncer.Quiet reg r r') : FoldOk cfg r' := by
  have hw := sameWork_quiet hq
  refine ⟨?_, hw.capacityQuorum.trans h.rule, ?_, ?_, fun f hf => ?_, fun f hf => ?_⟩
  · rw [hw.carried, hw.p]
    exact h.carried
  · rw [hw.fold, hw.pushes, hw.p]
    exact h.buffered
  · rw [hw.fold]
    exact h.folds
  · rw [hw.fold] at hf
    obtain ⟨hc, hfolding, horder, hsorted, hall, hsoft, hwait⟩ := h.exact f hf
    have hlease : reg.membership.cfg.lease = none := by
      rw [hcfg, (h.folds (by rw [hf]; nofun)).1]
      rfl
    have hids := ids_quiet hlease hq
    have hlen : r'.expectedMembers.length = r.expectedMembers.length := by
      simpa using hids.length_eq
    refine ⟨hw.carried.trans hc, ?_, horder.trans hids.symm, hsorted, ?_,
      hw.softDeadline.trans hsoft, ?_⟩
    · rw [hw.p, hw.pushes]
      exact hfolding
    · rw [hlen, hw.quorumSize]
      exact hall
    · rw [hw.pushes]
      exact hwait
  · rw [hw.fold] at hf
    obtain ⟨hfail, hnumel, hfolded⟩ := h.streaming f hf
    exact ⟨hfail, hw.p ▸ hnumel, hw.pushes ▸ hfolded⟩

theorem keys_insert_new (q : Push) (h : pushes.find m = none) :
    (pushes.insert m q).keys.Perm (m :: pushes.keys) := (pushes.entries_insert_new q h).map Prod.fst

theorem keys_insert_old {old : Push} (q : Push) (h : pushes.find m = some old) :
    (pushes.insert m q).keys.Perm pushes.keys := by
  refine ((pushes.entries_insert_perm m q).map Prod.fst).trans ?_
  exact ((pushes.entries_erase_perm h).map Prod.fst).symm

theorem folding_insert (h : Folding numel f pushes)
    (hnew : ∀ x b, pushes.find x = some b → x.learnerId ≠ m.learnerId) (hq : q.gradient = numel) :
    Folding numel f (pushes.insert m q) := by
  refine { h with distinct := ?_, folded := ?_, whole := ?_ }
  · intro x x' a a' hx hx' hids
    obtain ⟨rfl, -⟩ | ⟨-, hy⟩ := find_insert_cases hx <;>
      obtain ⟨rfl, -⟩ | ⟨-, hy'⟩ := find_insert_cases hx'
    · rfl
    · exact absurd hids.symm (hnew x' a' hy')
    · exact absurd hids (hnew x a hy)
    · exact h.distinct x x' a a' hy hy' hids
  · intro id hid
    obtain ⟨x, b, hx, hxid⟩ := h.folded id hid
    refine ⟨x, b, ?_, hxid⟩
    rwa [find_insert_ne]
    rintro rfl
    exact hnew x b hx rfl
  · intro x b hx hnot
    obtain ⟨-, rfl⟩ | ⟨-, hx⟩ := find_insert_cases hx
    · exact hq
    · exact h.whole x b hx hnot

theorem function_nonneg (w : LearnerWeight) {tokens steps : Nat} : 0 ≤ w.function tokens steps := by
  cases w with
  | tokens2OverSteps =>
    dsimp only [LearnerWeight.function]
    split
    · exact le_rfl
    · exact div_nonneg (mul_self_nonneg _) (Nat.cast_nonneg _)
  | equal => exact zero_le_one

theorem streamingFold_ok {f : StreamingFold} {gradient : Nat} {weight : ℚ}
    (hfail : f.failure = false) (hg : gradient = f.numel) (hw : 0 ≤ weight) :
    f.fold id gradient weight = some { f with folded := f.folded ++ [id] } := by
  unfold StreamingFold.fold
  rw [hfail, if_neg (by simp), if_neg (not_lt.2 hw), if_neg (not_not.2 hg)]

theorem foldOk_accept (hroster : cfg.fixedRoster = false) (hm : MembersOk cfg r)
    (h : FoldOk cfg r) (hacc : Accepts cfg m push r) (hdec : push.decodes cfg m = true) : FoldOk cfg
      (advanceFold cfg { r with pushes := r.pushes.insert m push } m) := by
  have hwhole : push.Whole cfg m r.p := ⟨hacc.names.2.1.symm, hdec⟩
  have hnone := hacc.unanswered hroster
  -- No push of the same learner is in the round.
  have hnew : ∀ x b, r.pushes.find x = some b → x.learnerId ≠ m.learnerId := by
    intro x b hx hid
    have := inj_on_of_nodup_map hm.ids (hm.answers x b hx).expected (hacc.mem_expected hroster) hid
    rw [this, hnone] at hx
    cases hx
  dsimp only [advanceFold]
  split
  · next hfold =>
    refine ⟨h.carried, h.rule, fun _ x b hx => ?_, h.folds, ?_, ?_⟩
    · obtain ⟨rfl, rfl⟩ | ⟨-, hx⟩ := find_insert_cases hx
      · exact hwhole
      · exact h.buffered hfold x b hx
    · simp [hfold]
    · simp [hfold]
  · next f hfold =>
    obtain ⟨hc, ⟨fragment, hfrag, hfolding⟩, horder, hsorted, hall, hsoft, -⟩ := h.exact f hfold
    have hgradient := (hwhole.shape_of hfrag).1
    obtain ⟨hout, hsame, hwait⟩ := advanceExact_spec f.order.length f
      (r.pushes.insert m push) (folding_insert hfolding hnew hgradient) (Nat.le_add_left _ _)
    refine ⟨h.carried, h.rule, (by cases ·), fun _ => h.folds (by rw [hfold]; nofun),
      fun g hg => ?_, fun _ => (by cases ·)⟩
    cases hg
    refine ⟨hc, ⟨fragment, hfrag, hout⟩, ?_, ?_, hall, hsoft, hwait⟩ <;> rw [hsame]
    · exact horder
    · exact hsorted
  · next f hfold =>
    obtain ⟨hfail, ⟨fragment, hfrag, hnumel⟩, hfolded⟩ := h.streaming f hfold
    have hgradient := (hwhole.shape_of hfrag).1
    rw [hfail, if_neg (by simp), find_insert_self]
    dsimp only
    rw [streamingFold_ok hfail (hgradient.trans hnumel.symm) (function_nonneg _)]
    refine ⟨h.carried, h.rule, (by cases ·), fun _ => h.folds (by rw [hfold]; nofun),
      fun _ => (by cases ·), fun g hg => ?_⟩
    cases hg
    refine ⟨hfail, ⟨fragment, hfrag, hnumel⟩, ?_⟩
    have hkeys := (keys_insert_old push.taken (find_insert_self r.pushes m push)).trans
      (keys_insert_new push hnone)
    refine List.Perm.trans ?_ (hkeys.map learnerId).symm
    exact (hfolded.append_right _).trans perm_append_comm

theorem foldOk_carry (h : FoldOk cfg r) (hwhole : push.Whole cfg m r.p)
    (hexact : r.fold.any isExact = false) :
    FoldOk cfg { r with carried := r.carried ++ [(m, push)] } := by
  refine ⟨fun e he => ?_, h.rule, h.buffered, h.folds, fun f hf => ?_, fun f hf => ?_⟩
  · rcases mem_snoc.1 he with he | rfl
    · exact h.carried e he
    · exact hwhole
  · rw [hf] at hexact
    cases hexact
  · exact { h.streaming f hf with }

theorem ExactOk.everyone_answered (h : ExactOk cfg r f) (hrule : r.capacityQuorum = none)
    (hc : r.action now = .complete) : r.expectedMembers.length ≤ r.pushes.size := by
  unfold action at hc
  split at hc
  · next hall => exact hall.2
  split at hc
  · next hreached =>
    unfold quorumReached at hreached
    rw [hrule] at hreached
    exact le_trans h.everyone (of_decide_eq_true hreached)
  · rw [h.soft] at hc
    split at hc
    · next hsoft => cases hsoft.1
    · split at hc <;> cases hc

theorem MembersOk.answers_subperm (h : MembersOk cfg r) : (r.pushes.keys.map learnerId).Subperm
      (r.expectedMembers.map learnerId) := by
  have hsub : r.pushes.keys ⊆ r.expectedMembers := fun m hm =>
    let ⟨q, hq⟩ := (r.pushes.mem_keys_iff m).1 hm
    (h.answers m q hq).expected
  obtain ⟨l, hperm, hsublist⟩ := subperm_of_subset r.pushes.nodup_keys hsub
  exact ⟨_, hperm.map _, hsublist.map _⟩

/-- A complete round that folds exactly has folded every learner: all of
them answered, so there is none to wait for. -/
theorem all_folded (hf : FoldOk cfg r) (hm : MembersOk cfg r) (hfold : r.fold = some (.exact f))
    (hc : r.action now = .complete) : f.folded = f.order.length
      ∧ f.order.Perm (r.pushes.keys.map learnerId) := by
  have hex := hf.exact f hfold
  obtain ⟨fragment, -, hfolding⟩ := hex.folding
  have hrule : r.capacityQuorum = none := by
    rw [hf.rule, (hf.folds (by rw [hfold]; nofun)).1]
    rfl
  have hanswers : (r.pushes.keys.map learnerId).Perm (r.expectedMembers.map learnerId) := by
    refine hm.answers_subperm.perm_of_length_le ?_
    have := hex.everyone_answered hrule hc
    rw [size_eq_keys] at this
    simpa using this
  refine ⟨le_antisymm hfolding.bound ?_, hex.order.trans hanswers.symm⟩
  by_contra hgt
  have hlt : f.folded < f.order.length := Nat.lt_of_not_le hgt
  have hin : f.order[f.folded] ∈ r.pushes.keys.map learnerId :=
    hanswers.mem_iff.2 (hex.order.mem_iff.1 (getElem_mem _))
  obtain ⟨m, hmem, hmid⟩ := mem_map.1 hin
  obtain ⟨q, hq⟩ := (r.pushes.mem_keys_iff m).1 hmem
  exact hex.waiting _ (List.getElem?_eq_getElem hlt) m q hq hmid

theorem folded_perm (hf : FoldOk cfg r) (hm : MembersOk cfg r) (hfold : r.fold = some fold)
    (hc : r.action now = .complete) : fold.foldedLearners.Perm (r.pushes.keys.map learnerId) := by
  cases fold with
  | streaming f => exact (hf.streaming f hfold).folded
  | exact f =>
    obtain ⟨hall, hperm⟩ := all_folded hf hm hfold hc
    show (f.order.take f.folded).Perm _
    rw [hall, take_length]
    exact hperm

theorem learnerId_le {a b : Member} (h : a ≤ b) : a.learnerId ≤ b.learnerId := by
  have hlex : toLex (a.learnerId, a.generation) ≤ toLex (b.learnerId, b.generation) := h
  rcases Prod.Lex.le_iff.1 hlex with hlt | ⟨heq, -⟩
  · exact le_of_lt hlt
  · exact le_of_eq heq

theorem sorted_ids : (pushes.keys.map learnerId).Pairwise (· ≤ ·) := pairwise_map.2
    (pushes.sorted_keys.imp fun hlt => learnerId_le (le_of_lt hlt))

theorem coverage (hf : FoldOk cfg r) (hm : MembersOk cfg r) (hfold : r.fold = some fold)
    (hc : r.action now = .complete) : fold.foldedLearners.insertionSort (· ≤ ·)
      = r.pushes.entries.map fun e => e.1.learnerId := by
  have hids : (r.pushes.entries.map fun e => e.1.learnerId) = r.pushes.keys.map learnerId := by
    unfold SortedMap.keys
    rw [map_map]
    rfl
  rw [hids]
  refine List.Perm.eq_of_pairwise' (pairwise_insertionSort _ _) sorted_ids ?_
  exact (perm_insertionSort _ _).trans (folded_perm hf hm hfold hc)

/-- The late deltas of a round that streams are folded after its pushes. -/
theorem foldCarried_ok (hstatic : cfg.membership = .default)
    (base : Nat) {es : List (Member × Push)} :
    ∀ f : StreamingFold, f.failure = false → f.numel = numel → (∀ e ∈ es, e.2.gradient = numel) →
      ∃ g, es.foldlM (fun fold e =>
          let weight := cfg.learnerWeight.function e.2.cTokens e.2.cSteps
          let discount := cfg.membership.carryDiscount (base - e.2.baseVersion)
          StreamingFold.fold fold e.1.learnerId e.2.gradient (weight * discount)) f = some g
        ∧ g.failure = false ∧ f.folded.length ≤ g.folded.length := by
  induction es with
  | nil => exact fun f hfail _ _ => ⟨f, rfl, hfail, le_rfl⟩
  | cons e es ih =>
    intro f hfail hnumel hes
    have hdiscount : cfg.membership.carryDiscount (base - e.2.baseVersion) = 1 := by
      rw [hstatic]
      exact if_pos (.inl rfl)
    have hfold : StreamingFold.fold f e.1.learnerId e.2.gradient
        (cfg.learnerWeight.function e.2.cTokens e.2.cSteps
          * cfg.membership.carryDiscount (base - e.2.baseVersion))
        = some { f with folded := f.folded ++ [e.1.learnerId] } := by
      refine streamingFold_ok hfail ?_ ?_
      · rw [hnumel]
        exact hes e mem_cons_self
      · rw [hdiscount, mul_one]
        exact function_nonneg _
    obtain ⟨g, hg, hgfail, hlen⟩ := ih { f with folded := f.folded ++ [e.1.learnerId] } hfail hnumel
      fun x hx => hes x (mem_cons_of_mem _ hx)
    refine ⟨g, ?_, hgfail, ?_⟩
    · rw [foldlM_cons]
      rw [hfold]
      exact hg
    · refine le_trans ?_ hlen
      simp

theorem prepareMergeScaled_error {pushes : List (Member × Push)}
    (hwhole : ∀ e ∈ pushes, e.2.Whole cfg e.1 r.p) (hne : pushes ≠ [])
    (he : prepareMergeScaled cfg r pushes = .error failure) : failure.ofFold = false := by
  obtain ⟨e₀, he₀⟩ := exists_mem_of_ne_nil pushes hne
  obtain ⟨fragment, hfrag, -⟩ := (hwhole e₀ he₀).shape
  unfold prepareMergeScaled at he
  rw [hfrag] at he
  dsimp only at he
  split at he
  · next hany =>
    obtain ⟨e, hmem, hne'⟩ := any_eq_true.1 hany
    exact absurd ((hwhole e hmem).shape_of hfrag).1 (of_decide_eq_true hne')
  split at he
  · next hany =>
    obtain ⟨e, hmem, hne'⟩ := any_eq_true.1 hany.2
    have := ((hwhole e hmem).shape_of hfrag).2
    rw [hany.1, if_pos rfl] at this
    exact absurd this (of_decide_eq_true hne')
  split at he <;> cases he
  rfl

theorem FoldOk.whole (h : FoldOk cfg r) (hnone : r.fold = none) :
    ∀ e ∈ r.pushes.entries ++ r.carried, e.2.Whole cfg e.1 r.p := by
  intro e he
  rcases mem_append.1 he with he | he
  · exact h.buffered hnone e.1 e.2 ((r.pushes.mem_entries_iff e.1 e.2).1 he)
  · exact h.carried e he

theorem finishes_of_complete (hf : FoldOk cfg r) (hm : MembersOk cfg r) (hfold : r.fold = some fold)
    (hc : r.action now = .complete) :
    (r.carried = [] → fold.finishes = true) ∧ ∀ f, fold = .streaming f →
        ∃ g, foldCarried cfg r f = some g ∧ g.finishes = true := by
  have hpos := hm.answered_of_complete hc
  have hlen : 0 < fold.foldedLearners.length := by
    rw [(folded_perm hf hm hfold hc).length_eq, length_map, ← size_eq_keys]
    exact hpos
  constructor
  · intro _
    cases fold with
    | exact f =>
      obtain ⟨fragment, -, hfolding⟩ := (hf.exact f hfold).folding
      show (!f.failure && decide (f.folded = f.order.length)) = true
      rw [hfolding.failure, (all_folded hf hm hfold hc).1]
      simp
    | streaming f =>
      have hne : f.folded ≠ [] := length_pos_iff.1 hlen
      show (!f.failure && !f.folded.isEmpty) = true
      rw [(hf.streaming f hfold).failure]
      simpa using hne
  · rintro f rfl
    obtain ⟨hfail, ⟨fragment, hfrag, hnumel⟩, -⟩ := hf.streaming f hfold
    obtain ⟨g, hg, hgfail, hle⟩ := foldCarried_ok
      (hf.folds (by rw [hfold]; nofun)).1 r.baseVersion f hfail
      hnumel fun e he => ((hf.carried e he).shape_of hfrag).1
    have hne : g.folded ≠ [] := length_pos_iff.1 (lt_of_lt_of_le hlen hle)
    refine ⟨g, hg, ?_⟩
    unfold StreamingFold.finishes
    rw [hgfail]
    simpa using hne

/-- The preparation of a complete round fails for no reason of its fold,
its late deltas or the shapes of its pushes. -/
theorem prepare_error (hf : FoldOk cfg r) (hm : MembersOk cfg r) (hc : r.action now = .complete)
    {versions : List Nat} (he : prepareRoundCompute cfg versions r = .error failure) :
    failure.ofFold = false := by
  have hpos := hm.answered_of_complete hc
  unfold prepareRoundCompute at he
  split at he
  · cases he
    rfl
  dsimp only at he
  split at he
  · -- Every push has its tags where the option asks for them.
    next htags =>
      have hnone : r.fold = none := by
        by_contra hsome
        rw [(hf.folds hsome).2] at htags
        cases htags.1
      obtain ⟨e, hmem, htag⟩ := any_eq_true.1 htags.2
      obtain ⟨fragment, -, -, hscales⟩ := (hf.whole hnone e hmem).shape
      rw [hscales, htags.1] at htag
      cases htag
  split at he
  · next hnone =>
    split at he <;> cases he
    next e hmerge =>
    refine prepareMergeScaled_error (hf.whole hnone) ?_ hmerge
    intro hnil
    have hentries := (append_eq_nil_iff.1 hnil).1
    unfold size at hpos
    rw [hentries] at hpos
    cases hpos
  · next fold hfold =>
    obtain ⟨hplain, hlate⟩ := finishes_of_complete hf hm hfold hc
    split at he
    · next hcover => exact absurd (coverage hf hm hfold hc) hcover
    by_cases hcarried : r.carried = []
    · rw [if_pos hcarried] at he
      dsimp only at he
      rw [if_pos (hplain hcarried)] at he
      cases he
    · rw [if_neg hcarried] at he
      cases fold with
      | exact f => exact absurd (hf.exact f hfold).carried hcarried
      | streaming f =>
        obtain ⟨g, hg, hfin⟩ := hlate f rfl
        dsimp only at he
        rw [hg] at he
        dsimp only at he
        rw [show (RoundFold.streaming g).finishes = true from hfin] at he
        cases he

end Round

namespace Syncer

variable {n : Numerics} {cfg : Config} {s s' : Syncer}

/-- What holds of every open round and is kept by every move of one holds
after the step. -/
theorem PipeStep.forall_open {P : Round → Prop} (hs : PipeStep cfg s s')
    (h : ∀ r ∈ s.pipe.inflight, P r) (quiet : ∀ r r', P r → Quiet s.reg r r' → P r')
    (launch : ∀ now, P (attachLate s.pipe.lateCarry (Round.launch cfg s.st.versions s.pipe.nextT
        (cfg.schedule.fragmentForStep s.pipe.nextT) (s.launchGroups.map member) now)).2)
    (restart : ∀ r ∈ s.pipe.inflight, ∀ clock, P r →
      s.restarting cfg = some r → s'.roundLog ≠ s.roundLog →
      P (r.restart cfg s.st.versions (s.reg.currentGroups.map member) clock))
    (accept : ∀ r ∈ s.pipe.inflight, ∀ m push, P r → Fresh cfg s m push →
      Round.Accepts cfg m push r →
      P (advanceFold cfg { r with pushes := r.pushes.insert m push } m))
    (carry : ∀ r ∈ s.pipe.inflight, ∀ m push, P r → Fresh cfg s m push →
      r.p = push.fragmentId → r.fold.any isExact = false →
      P { r with carried := r.carried ++ [(m, push)] }) : ∀ r ∈ s'.pipe.inflight, P r := by
  have hreplace : ∀ {l₁ l₂ : List Round} {r r' : Round},
      s.pipe.inflight = l₁ ++ r :: l₂ → s'.pipe.inflight = l₁ ++ r' :: l₂ →
      P r' → ∀ x ∈ s'.pipe.inflight, P x := by
    intro l₁ l₂ r r' hl hl' hr' x hx
    rw [hl', mem_append, mem_cons] at hx
    rcases hx with hx | rfl | hx
    · exact h x (by rw [hl]; exact mem_append_left _ hx)
    · exact hr'
    · exact h x (by
        rw [hl]
        exact mem_append_right _ (mem_cons_of_mem _ hx))
  cases hs with
  | quiet rounds pipe _ _ =>
    intro x hx
    rw [pipe] at hx
    obtain ⟨r, hr, hq⟩ := exists_of_forall₂ rounds hx
    exact quiet r x (h r hr) hq
  | launch _ _ _ pipe _ _ _ =>
    intro x hx
    rw [pipe] at hx
    rcases mem_snoc.1 hx with hx | rfl
    · exact h x hx
    · exact launch _
  | @restart k now clock submitted r round roster enough pipe cut log turn timeout =>
    obtain ⟨l₁, l₂, hl, hset⟩ := exists_split_set round
      (r.restart cfg s.st.versions (s.reg.currentGroups.map member) clock)
    have hin : r ∈ s.pipe.inflight := mem_of_getElem? round
    refine hreplace hl (by rw [pipe]; exact hset) (restart r hin clock (h r hin) ?_ ?_)
    · exact restarting_eq turn round timeout roster enough
    · rw [log]
      exact append_ne_self.symm
  | submit _ _ _ pipe _ _ =>
    intro x hx
    rw [pipe] at hx
    exact h x (mem_of_mem_eraseIdx hx)
  | accept fresh route pipe _ _ =>
    obtain ⟨l₁, r, l₂, hl, hacc, hl'⟩ := routePush_accepted route
    have hin : r ∈ s.pipe.inflight := hl ▸ mem_append_cons_self
    exact hreplace hl (by rw [pipe]; exact hl') (accept r hin _ _ (h r hin) fresh hacc)
  | carry fresh late closed hcarry taken pipe _ _ =>
    obtain ⟨-, -, -, -, ⟨l₁, r, l₂, hl, hp, hexact, -, -, hl'⟩
      | ⟨hsame, -⟩⟩ := carry_taken hcarry taken
    · have hin : r ∈ s.pipe.inflight := hl ▸ mem_append_cons_self
      exact hreplace hl (by rw [pipe]; exact hl') (carry r hin _ _ (h r hin) fresh hp hexact)
    · intro x hx
      rw [pipe, hsame] at hx
      exact h x hx
  | commit _ _ _ _ pipe _ _ _ =>
    intro x hx
    rcases pipe with ⟨-, -, pipe⟩ | ⟨-, pipe⟩ <;>
    · rw [pipe] at hx
      exact h x hx
  | computed _ pipe _ _ | settle _ _ pipe _ _ | written _ pipe _ _ =>
    intro x hx
    rw [pipe] at hx
    exact h x hx

/-- The reduction of every open round is in order, and so are the late
deltas that wait for one. -/
structure FoldsOk (cfg : Config) (s : Syncer) : Prop where
  rounds : ∀ r ∈ s.pipe.inflight, r.FoldOk cfg
  queued : ∀ c p e, s.pipe.lateCarry = some c → e ∈ (c.queued.find p).getD [] → e.2.Whole cfg e.1 p

/-- A restart gives no exact fold to a round with late deltas. -/
def keepsStreaming (cfg : Config) (s : Syncer) : Op → Bool
  | .turn _ => (s.restarting cfg).all fun r => r.carried.isEmpty
      || !(roundFold cfg r.p (s.reg.currentGroups.map Group.member)
        cfg.quorum).any RoundFold.isExact
  | _ => true

theorem queued_step (hs : PipeStep cfg s s') (h : FoldsOk cfg s) {c' : LateCarry}
    {e : Member × Push} (hc' : s'.pipe.lateCarry = some c') (he : e ∈ (c'.queued.find p).getD []) :
    e.2.Whole cfg e.1 p := by
  cases hs with
  | quiet _ pipe | submit _ _ _ pipe | computed _ pipe | settle _ _ pipe
  | written _ pipe =>
    rw [pipe] at hc'
    exact h.queued c' p e hc' he
  | commit _ _ _ _ pipe =>
    rcases pipe with ⟨-, -, pipe⟩ | ⟨-, pipe⟩ <;>
    · rw [pipe] at hc'
      exact h.queued c' p e hc' he
  | launch _ _ _ pipe =>
    rw [pipe] at hc'
    dsimp only at hc'
    rw [attachLate_fst] at hc'
    obtain ⟨c, hc, rfl⟩ := Option.map_eq_some_iff.1 hc'
    rw [find_erase] at he
    split at he
    · cases he
    · exact h.queued c p e hc he
  | restart _ _ _ pipe =>
    rw [pipe] at hc'
    obtain ⟨c, hc, rfl⟩ := Option.map_eq_some_iff.1 hc'
    rw [(LateCarry.releaseAll_frame _ c).2] at he
    exact h.queued c p e hc he
  | accept _ _ pipe =>
    rw [pipe] at hc'
    obtain ⟨c, hc, rfl⟩ := Option.map_eq_some_iff.1 hc'
    exact h.queued c p e hc he
  | @carry member push c c₁ outcome inflight fresh late closed carry taken pipe cut log =>
    rw [pipe] at hc'
    cases hc'
    change e ∈ (c₁.queued.find p).getD [] at he
    obtain ⟨-, -, -, -, ⟨_, _, _, _, _, _, _, rfl, _⟩ | ⟨-, rfl⟩⟩ := carry_taken carry taken
    · exact h.queued _ p e late he
    · rw [find_insert] at he
      split at he
      · next hp =>
        rcases mem_snoc.1 he with he | rfl
        · exact h.queued c p e late (hp ▸ he)
        · exact ⟨hp.symm, fresh.decodes⟩
      · exact h.queued c p e late he

theorem foldsOk_step (hroster : cfg.fixedRoster = false) (hreg : RegOk cfg.membership s.reg)
    (hmembers : ∀ r ∈ s.pipe.inflight, r.MembersOk cfg)
    (hclean : ∀ r, s.restarting cfg = some r → s'.roundLog ≠ s.roundLog →
      (roundFold cfg r.p (s.reg.currentGroups.map member)
        cfg.quorum).any isExact = true → r.carried = [])
    (h : FoldsOk cfg s) (hs : PipeStep cfg s s') : FoldsOk cfg s' where
  queued c p e hc he := queued_step hs h hc he
  rounds := by
    have hids : ((s.reg.currentGroups.map member).map learnerId).Nodup := by
      rw [map_map]
      exact nodup_currentGroups hreg
    have hsoft : ∀ f : Nat → Nat, cfg.membership.softDeadline = none →
        cfg.membership.softDeadline.map f = none := by
      intro f hnone
      rw [hnone]
      rfl
    refine hs.forall_open h.rounds ?_ ?_ ?_ ?_ ?_
    · intro r r' hr hq
      exact Round.foldOk_quiet hreg.configured hr hq
    · intro now
      obtain ⟨late, heq, hexact, -, hqueued⟩ := attachLate_spec _
      rw [heq]
      refine foldOk_fresh rfl rfl rfl (hsoft _) ?_ ?_ ?_
      · exact ((filter_sublist.map _).map _).nodup hids
      · intro e he
        obtain ⟨c, hc, hmem⟩ := hqueued e he
        exact h.queued c _ e hc hmem
      · intro hany
        by_contra hne
        have := hexact hne
        rw [hany] at this
        cases this
    · intro r _ clock hr hrestart hlog
      exact foldOk_fresh rfl rfl hr.rule (hsoft _) hids hr.carried (hclean r hrestart hlog)
    · intro r hin m push hr hfresh hacc
      exact foldOk_accept hroster (hmembers r hin) hr hacc hfresh.decodes
    · intro r _ m push hr hfresh hp hexact
      exact foldOk_carry hr ⟨hp.symm, hfresh.decodes⟩ hexact

theorem foldsOk_new {i : Start cfg} : FoldsOk cfg (.new cfg i) := by
  refine ⟨fun r hr => (nomatch hr), fun c p e hc he => ?_⟩
  have hc : LateCarry.new cfg = some c := hc
  unfold LateCarry.new at hc
  split at hc
  · obtain ⟨-, rfl⟩ := of_guard hc
    cases he
  · cases hc

/-- The preparation of a complete round does not fail because of its late
deltas or because of its fold. -/
def NoFoldFailure (cfg : Config) (s : Syncer) : Prop :=
  ∀ r ∈ s.pipe.inflight, ∀ now, r.action now = .complete →
    ∀ failure, prepareRoundCompute cfg s.st.versions r = .error failure → failure.ofFold = false

/-- On a roster that is not fixed, in every run in which no restart gives
an exact fold to a round with late deltas, the late deltas never stop the
scheduler. -/
theorem carried_never_abort {i : Start cfg} (hroster : cfg.fixedRoster = false)
    (h : (syncer n cfg i (keepsStreaming cfg)).Reachable s) : NoFoldFailure cfg s := by
  have hok : FoldsOk cfg s := by
    refine System.invariant (P := FoldsOk cfg) ?_ ?_ h
    · rintro s ⟨-, rfl⟩
      exact foldsOk_new
    · rintro s s' hreach hok ⟨op, hallowed, hexec⟩
      refine foldsOk_step hroster (regOk_reachable hreach)
        (fun r hr => (answersOk_reachable hroster hreach).members r
          (mem_rounds_inflight hr)) ?_ hok (exec_steps hexec).1
      intro r hr hlog hexact
      obtain ⟨i, rfl⟩ := turn_of_restarting hexec hr hlog
      unfold keepsStreaming at hallowed
      rw [hr, Option.all_some, hexact] at hallowed
      simpa using hallowed
  intro r hr now hc failure he
  exact prepare_error (hok.rounds r hr)
    ((answersOk_reachable hroster h).members r (mem_rounds_inflight hr)) hc he

/-- Three learners of equal weight, two of which are a quorum. -/
def foldConfig : Config := { carryConfig with learners := 3, learnerWeight := .equal }

def foldStart : Start foldConfig :=
  { carryStart with
    membership := .new .default 3
    owned := carryStart.owned
    shapes := carryStart.shapes
    configured := rfl
    nobody := ⟨rfl, rfl⟩ }

/-- Step 1 closes without learner 2, whose delta is carried into step 2. -/
def foldLate : List (Op × Nat) :=
  [(.register ⟨0, 1⟩ 0 ⟨none, false⟩, 0), (.register ⟨1, 1⟩ 0 ⟨none, false⟩, 0),
   (.register ⟨2, 1⟩ 0 ⟨none, false⟩, 0), (.wake (.hello ⟨⟨0, 1⟩, 0⟩), 0),
   (.wake (.hello ⟨⟨1, 1⟩, 1⟩), 0), (.wake (.hello ⟨⟨2, 1⟩, 2⟩), 0), (.turn {}, 40),
   (.wake (.push ⟨0, 1⟩ (samplePush ⟨0, 1⟩ 1 0 0 1) 1), 40),
   (.wake (.push ⟨1, 1⟩ (samplePush ⟨1, 1⟩ 1 0 0 1) 1), 40), (.wake (.computed 0 [1]), 40),
   (.wake (.push ⟨2, 1⟩ (samplePush ⟨2, 1⟩ 1 0 0 1) 2), 40)]

/-- Learner 2 leaves, and step 2 restarts with the other two, who answer. -/
def foldRestart : List (Op × Nat) :=
  foldLate ++ [(.unregister ⟨2, 1⟩, 0), (.wake (.disconnected ⟨2, 1⟩), 40)] ++ timeoutPass
    ++ [(.wake (.push ⟨0, 1⟩ (samplePush ⟨0, 1⟩ 2 0 1 2) 21), 40),
      (.wake (.push ⟨1, 1⟩ (samplePush ⟨1, 1⟩ 2 0 1 2) 21), 0)]

def foldedExactly : Syncer := (Syncer.new foldConfig foldStart).ending bitNumerics foldConfig anyOp
    foldRestart

/-- Step 2 is complete, and its late delta stops the scheduler. -/
theorem carried_needs_streaming :
    (syncer bitNumerics foldConfig foldStart anyOp).Reachable foldedExactly
      ∧ ¬ NoFoldFailure foldConfig foldedExactly := by
  refine ⟨reachable_ending (reachable_new rfl anyOp) (by decide +kernel), fun h => ?_⟩
  have hfail : ∃ r ∈ foldedExactly.pipe.inflight, r.action 21 = .complete
      ∧ prepareRoundCompute foldConfig foldedExactly.st.versions r
        = .error .carriedNeedStreaming := by decide +kernel
  obtain ⟨r, hr, hc, he⟩ := hfail
  cases h r hr 21 hc _ he

/-- Learner 2 stays, and the quorum of step 2 answers its first attempt. -/
def foldedLate : Syncer := (Syncer.new foldConfig foldStart).ending bitNumerics foldConfig
    (keepsStreaming foldConfig)
    (foldLate ++ [(.wake (.push ⟨0, 1⟩ (samplePush ⟨0, 1⟩ 2 0 1 1) 3), 40),
        (.wake (.push ⟨1, 1⟩ (samplePush ⟨1, 1⟩ 2 0 1 1) 3), 0)])

theorem carried_never_abort_sample : (foldedLate.pipe.inflight.map fun r =>
        (r.carried.length, r.quorumReached)) = [(1, true)] ∧ NoFoldFailure foldConfig foldedLate :=
  ⟨by decide +kernel, carried_never_abort (i := foldStart) rfl
    (reachable_ending (reachable_new rfl _) (by decide +kernel))⟩

end Syncer

end Yeto.Server
