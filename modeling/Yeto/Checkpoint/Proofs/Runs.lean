/-
The states of a syncer that a checkpoint can hold. A fragment has as many
values as its layout says once it is initialized, and none before; its
version is the one the last committed step implies. When all owned fragments
are initialized this is what `load_checkpoint` checks (`Ready`).
-/
import Yeto.Checkpoint.Model
import Yeto.Server.Proofs.Shard
import Mathlib.Data.Fintype.Card

namespace Yeto.Checkpoint

open Lib Yeto.Server List Option ShardSchedule State Config SortedMap

variable {c : Config} {s s' : State} {fid : Nat}

section

variable (c)

@[simp] theorem Config.length_sizes : c.sizes.length = c.layout.length := by
  unfold sizes
  rw [length_map, length_zipIdx]

theorem Config.sizes_get (fid : Nat) : c.sizes[fid]? = (c.layout[fid]?).map fun tensors =>
      if c.schedule.owns fid then tensors.sum else 0 := by
  unfold sizes
  rw [List.getElem?_map, List.getElem?_zipIdx, Option.map_map, Nat.zero_add]
  rfl

theorem Config.size_unowned (h : c.schedule.owns fid = false) : c.sizes.getD fid 0 = 0 := by
  rw [getD_eq_getElem?_getD, c.sizes_get, h]
  cases c.layout[fid]? <;> rfl

def State.kept (s : State) (fid : Nat) : Nat :=
  if s.initialized[fid]? = some true then s.cfg.sizes.getD fid 0 else 0

structure Ok (c : Config) (s : State) : Prop where
  cfg : s.cfg = c
  fragments : s.fragments.length = c.layout.length
  initialized : s.initialized.length = c.layout.length
  nesterov : s.nesterov.length = if c.period.isSome then c.layout.length else 0
  kept : ∀ (fid : Nat) (f : Fragment), s.fragments[fid]? = some f →
    f.params.length = s.kept fid ∧ f.momentum.length = s.kept fid
      ∧ f.version.val = c.versionAt s.globalStep fid
  accums : ∀ (fid : Nat) (x : Nesterov), s.nesterov[fid]? = some x → x.accum.length = s.kept fid
  step : s.globalStep.val = 0 ∨ c.schedule.ownsStep s.globalStep = true
  ledger : ∀ id ∈ s.ledger.keys, id < c.learners

theorem ok_new : Ok c (.new c) := by
  have hkept : ∀ fid, (new c).kept fid = 0 := by
    intro fid
    refine if_neg fun h => ?_
    obtain ⟨x, -, hx⟩ := map_eq_some_iff.1 (List.getElem?_map (f := fun _ => false) ▸ h)
    cases hx
  refine ⟨rfl, length_map _, length_map _, ?_, ?_, ?_, .inl rfl, nofun⟩
  · unfold new
    split
    · exact length_map _
    · rfl
  · intro fid f hf
    obtain ⟨x, -, rfl⟩ := map_eq_some_iff.1 (List.getElem?_map ▸ hf)
    refine ⟨(hkept fid).symm, (hkept fid).symm, ?_⟩
    unfold versionAt
    split
    · exact (expectedVersion_zero _ _).symm
    · rfl
  · intro fid x hx
    rw [hkept]
    unfold new at hx
    split at hx
    · obtain ⟨y, -, rfl⟩ := map_eq_some_iff.1 (List.getElem?_map ▸ hx)
      rfl
    · cases hx

end

/-- An owned fragment of a state that is initialized is as long as its
layout says; the others are empty. -/
theorem kept_eq (h : s.allInitialized = true) (hs : Ok c s) (hfid : fid < c.layout.length) :
    s.kept fid = c.sizes.getD fid 0 := by
  have hlt : fid < s.initialized.length := hs.initialized ▸ hfid
  have hget := List.getElem?_eq_getElem hlt
  have hmem : (s.initialized[fid], fid) ∈ s.initialized.zipIdx := by
    refine mem_of_getElem? (i := fid) ?_
    rw [List.getElem?_zipIdx, hget, Nat.zero_add]
    rfl
  have hall := all_eq_true.1 h _ hmem
  unfold kept
  rw [hget, hs.cfg]
  rw [hs.cfg] at hall
  cases howns : c.schedule.owns fid with
  | true =>
    rw [howns] at hall
    exact if_pos (congrArg some hall)
  | false =>
    rw [c.size_unowned howns]
    exact ite_self _

theorem ok_init {values : List U32} (hs : Ok c s) (h : s.exec (.init fid values) = some s') :
    Ok c s' := by
  dsimp only [exec] at h
  split at h
  case isFalse => cases h
  next hcond =>
  obtain ⟨-, hsize, hinit⟩ := hcond
  cases h
  have hlt : fid < s.initialized.length := (List.getElem?_eq_some_iff.1 hinit).1
  -- The fragment has its values now, and the others are as they were.
  have hkept : ∀ q, kept { s with
      initialized := s.initialized.set fid true } q
      = if fid = q then values.length else s.kept q := by
    intro q
    unfold kept
    rw [List.getElem?_set]
    by_cases hq : fid = q
    · subst hq
      rw [if_pos rfl, if_pos hlt, if_pos rfl, if_pos rfl, getD_eq_getElem?_getD, hsize]
      rfl
    · rw [if_neg hq, if_neg hq]
  refine ⟨hs.cfg, ?_, ?_, ?_, ?_, ?_, hs.step, hs.ledger⟩
  · exact (length_modify ..).trans hs.fragments
  · exact (length_set ..).trans hs.initialized
  · exact (length_modify ..).trans hs.nesterov
  · intro q f hf
    rw [List.getElem?_modify] at hf
    obtain ⟨g, hg, rfl⟩ := map_eq_some_iff.1 hf
    obtain ⟨hparams, hmomentum, hver⟩ := hs.kept q g hg
    refine ⟨(?_ : _ = _).trans (hkept q).symm, (?_ : _ = _).trans (hkept q).symm, ?_⟩
    · split
      · rfl
      · exact hparams
    · split
      · exact length_map _
      · exact hmomentum
    · split <;> exact hver
  · intro q x hx
    rw [List.getElem?_modify] at hx
    obtain ⟨y, hy, rfl⟩ := map_eq_some_iff.1 hx
    refine (?_ : _ = _).trans (hkept q).symm
    split
    · exact length_map _
    · exact hs.accums q y hy

theorem ok_commit {params momentum accum : List U32} (hs : Ok c s)
    (h : s.exec (.commit params momentum accum) = some s') : Ok c s' := by
  obtain rfl := hs.cfg
  dsimp only [exec] at h
  split at h
  case isFalse => cases h
  next hlt =>
  split at h
  case isFalse => cases h
  next hcond =>
  obtain ⟨hall, hparams, hmomentum, haccum⟩ := hcond
  cases h
  obtain ⟨howns, -⟩ := s.cfg.schedule.stepAfter_spec s.globalStep
  have hkept : ∀ {k}, s.cfg.sizes[s.cfg.schedule.fragmentForStep
      (s.cfg.schedule.stepAfter s.globalStep)]? = some k →
      s.kept (s.cfg.schedule.fragmentForStep (s.cfg.schedule.stepAfter s.globalStep)) = k := by
    intro k hk
    have hfid := (List.getElem?_eq_some_iff.1 hk).1
    rw [kept_eq hall hs (s.cfg.length_sizes ▸ hfid), getD_eq_getElem?_getD, hk]
    rfl
  have hver : ∀ q, s.cfg.versionAt (s.cfg.schedule.stepAfter s.globalStep) q
      = if s.cfg.schedule.fragmentForStep (s.cfg.schedule.stepAfter s.globalStep) = q
        then s.cfg.schedule.stepAfter s.globalStep else s.cfg.versionAt s.globalStep q := by
    intro q
    unfold versionAt
    cases hq : s.cfg.schedule.owns q with
    | true => exact expectedVersion_stepAfter _ hq s.globalStep
    | false =>
      refine Eq.symm (if_neg ?_)
      rintro rfl
      rw [howns] at hq
      cases hq
  refine ⟨rfl, ?_, hs.initialized, ?_, ?_, ?_, ?_, hs.ledger⟩
  · exact (length_set ..).trans hs.fragments
  · exact (length_modify ..).trans hs.nesterov
  · intro q f hf
    unfold commit at hf
    rw [List.getElem?_set] at hf
    show _ = s.kept q ∧ _ = s.kept q ∧ f.version.val
      = s.cfg.versionAt (s.cfg.schedule.stepAfter s.globalStep) q
    rw [hver q]
    split at hf
    · next hq =>
      subst hq
      split at hf <;> cases hf
      exact ⟨(hkept hparams).symm, (hkept hmomentum).symm, (if_pos rfl).symm⟩
    · next hq =>
      rw [if_neg hq]
      exact hs.kept q f hf
  · intro q x hx
    unfold commit at hx
    rw [List.getElem?_modify] at hx
    obtain ⟨y, hy, rfl⟩ := map_eq_some_iff.1 hx
    show _ = s.kept q
    split
    · next hq =>
      subst hq
      exact (hkept haccum).symm
    · exact hs.accums q y hy
  · exact .inr (ownsStep_stepAfter _ _)

theorem ok_record {learner : U32} {steps tokens : U64} {account : Bool}
    (hs : Ok c s) (h : s.exec (.record learner steps tokens account) = some s') : Ok c s' := by
  dsimp only [exec] at h
  split at h
  case isFalse => cases h
  next hlearner =>
  cases h
  refine { hs with ledger := ?_ }
  intro id hid
  obtain ⟨v, hv⟩ := (mem_keys_iff _ _).1 hid
  obtain ⟨rfl, -⟩ | ⟨-, hv⟩ := find_insert_cases hv
  · rw [← hs.cfg]
    exact hlearner
  · exact hs.ledger id ((mem_keys_iff _ _).2 ⟨v, hv⟩)

theorem ok_of_reachable (h : (runs c).Reachable s) : Ok c s := by
  refine System.guarded_invariant (ok_new c) ?_ h
  intro s s' op hs _ hexec
  cases op with
  | init fid values => exact ok_init hs hexec
  | commit params momentum accum => exact ok_commit hs hexec
  | record learner steps tokens account => exact ok_record hs hexec

end Yeto.Checkpoint
