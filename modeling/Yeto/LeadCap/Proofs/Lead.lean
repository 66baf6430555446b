/-
How far an island can be ahead of the slowest one under the lead cap 1.

An island passes a boundary only with a push from that boundary's cut that was
merged (`IslandOk.passed`), and a merge has a push of every island. As long as
an island pushes once per cut, the slow island completed as many rounds. With
several fragments one cut can answer all of them (`three_rounds_ahead`).
-/
import Mathlib.Combinatorics.Enumerative.DoubleCounting
import Mathlib.Order.Interval.Finset.Nat
import Yeto.LeadCap.Model

namespace Yeto.LeadCap

open Lib List SortedMap Option Finset Function Island

variable {P : Profile} {w w' : World P} {i : Fin P.islands} {t : Nat}
  {s : Island} {merged : List Nat}

structure IslandOk (P : Profile) (merged : List Nat) (s : Island) : Prop where
  steps : ∀ p t, s.pending.find p = some t → 0 < t
  cuts : ∀ t r, s.inflight.find t = some r → r ≤ s.localRound
  retained : s.retainedRound ≤ s.localRound
  latest : s.retainedRound ≠ 0 → ∃ t, (t, s.retainedRound) ∈ s.pushed
  rounds : ∀ t r, (t, r) ∈ s.pushed → 0 < r ∧ r ≤ s.retainedRound
  oneRound : ∀ t r r', (t, r) ∈ s.pushed → (t, r') ∈ s.pushed → r = r'
  oneStep : ∀ t t' r, (t, r) ∈ s.pushed → (t', r) ∈ s.pushed → t = t'
  /-- A push is in flight, or it was merged and the island has the merge. -/
  settled : ∀ t r, (t, r) ∈ s.pushed → (∃ r, s.inflight.find t = some r)
    ∨ t ∈ merged ∧ t ≤ s.fragmentVersions (P.fragmentForStep t)
  passed : ∀ k, 0 < k → k < s.started → ∃ t, (t, k) ∈ s.pushed ∧ t ∈ merged

theorem mem_pushed_newPair {u r : Nat} (h : (u, r) ∈ (s.newPair P t).pushed) :
    u = t ∧ r = s.localRound ∨ (u, r) ∈ s.pushed := (mem_cons.1 h).imp_left Prod.mk.inj

section

variable (h : IslandOk P merged s)
include h

theorem ok_queuePull (ht : 0 < t) : IslandOk P merged (s.queuePull P t) := by
  have hinsert : ∀ p u, (s.pending.insert (P.fragmentForStep t) t).find p = some u → 0 < u := by
    intro p u hu
    obtain ⟨-, rfl⟩ | ⟨-, hu⟩ := find_insert_cases hu
    · exact ht
    · exact h.steps p u hu
  dsimp only [queuePull]
  split
  · exact { h with steps := hinsert }
  · split
    · exact { h with steps := hinsert }
    · exact h

/-- The cap lets an island train: its last push is from the cut of this
boundary, and it was merged. -/
theorem ok_train (hcap : P.maxLocalRoundsAhead = some 1) (hidle : s.training = false)
    (hblockers : s.leadBlockers P = []) (hpushed : s.leadUnpushed P = false) :
    IslandOk P merged { s with training := true } := by
  refine { h with passed := fun k hk hlt => ?_ }
  have hlt : k < s.localRound + 1 := hlt
  by_cases hlast : k < s.localRound
  · refine h.passed k hk ?_
    unfold started
    rw [hidle]
    exact hlast
  · unfold leadUnpushed at hpushed
    rw [hcap] at hpushed
    have hlarge := of_decide_eq_false hpushed
    have hretained := h.retained
    obtain ⟨t, ht⟩ := h.latest (by omega)
    rw [show s.retainedRound = k by omega] at ht
    refine ⟨t, ht, ?_⟩
    rcases h.settled t k ht with ⟨r, hr⟩ | ⟨hmerged, -⟩
    · -- a pair in flight would stop the round
      have hcut := h.cuts t r hr
      unfold leadBlockers at hblockers
      rw [hcap] at hblockers
      have hmem := filter_eq_nil_iff.1 hblockers r ((mem_values_iff _ _).2 ⟨t, hr⟩)
      exact absurd (decide_eq_true (by omega)) hmem
    · exact hmerged

theorem ok_completeLocalRound (htraining : s.training = true) :
    IslandOk P merged s.completeLocalRound := by
  refine { h with
    cuts := fun t r hr => (h.cuts t r hr).trans (Nat.le_succ _)
    retained := h.retained.trans (Nat.le_succ _)
    passed := fun k hk hlt => h.passed k hk ?_ }
  unfold started
  rw [htraining]
  exact hlt

theorem ok_applyPair (hmerged : t ∈ merged)
    (hbase : s.fragmentVersions (P.fragmentForStep t) = P.expectedBase t) :
    IslandOk P merged (s.applyPair P t) := by
  refine { h with
    cuts := fun u r hr => h.cuts u r (find_erase_cases hr).2
    settled := fun u r hu => ?_ }
  dsimp only [applyPair]
  by_cases hut : u = t
  · subst hut
    rw [update_self]
    exact .inr ⟨hmerged, le_rfl⟩
  · rw [find_erase_ne _ hut]
    refine (h.settled u r hu).imp_right fun ⟨hm, hle⟩ => ⟨hm, hle.trans ?_⟩
    by_cases hp : P.fragmentForStep u = P.fragmentForStep t
    · rw [hp, update_self, hbase]
      exact Nat.sub_le _ _
    · rw [update_of_ne hp]

theorem ok_newPair (honce : s.retainedRound < s.localRound) (hready : s.readyCandidate P t = true)
    (hnew : s.inflight.contains t = false) : IslandOk P merged (s.newPair P t) := by
  obtain ⟨hpos, hpending, hver, -, -⟩ := of_decide_eq_true hready
  have hbase : P.expectedBase t < t := Nat.sub_lt (h.steps _ t hpending) P.fragments_pos
  have hretained : (s.newPair P t).retainedRound = s.localRound := max_eq_right honce.le
  -- no push was for this step, or from this cut
  have hfresh : ∀ r, (t, r) ∉ s.pushed := by
    intro r hr
    rcases h.settled t r hr with ⟨r', hr'⟩ | ⟨-, hle⟩
    · rw [(contains_iff _ _).2 ⟨r', hr'⟩] at hnew
      cases hnew
    · omega
  have hlater : ∀ u, (u, s.localRound) ∉ s.pushed := fun u hu => not_lt.2 (h.rounds u _ hu).2 honce
  refine {
    steps := fun p u hu => h.steps p u (find_erase_cases hu).2
    cuts := fun u r hr => ?_
    retained := hretained.le
    latest := fun _ => ⟨t, hretained ▸ mem_cons_self⟩
    rounds := fun u r hu => ?_
    oneRound := fun u r r' hr hr' => ?_
    oneStep := fun u u' r hu hu' => ?_
    settled := fun u r hu => ?_
    passed := fun k hk hlt => (h.passed k hk hlt).imp fun _ ⟨hu, hm⟩ =>
      ⟨mem_cons_of_mem _ hu, hm⟩ }
  · obtain ⟨-, rfl⟩ | ⟨-, hr⟩ := find_insert_cases hr
    · exact le_rfl
    · exact h.cuts u r hr
  · rw [hretained]
    obtain ⟨rfl, rfl⟩ | hu := mem_pushed_newPair hu
    · exact ⟨hpos, le_rfl⟩
    · exact ⟨(h.rounds u r hu).1, (h.rounds u r hu).2.trans honce.le⟩
  · rcases mem_pushed_newPair hr with ⟨hu, hround⟩ | hr
      <;> rcases mem_pushed_newPair hr' with ⟨hu', hround'⟩ | hr'
    · rw [hround, hround']
    · exact absurd (hu ▸ hr') (hfresh r')
    · exact absurd (hu' ▸ hr) (hfresh r)
    · exact h.oneRound u r r' hr hr'
  · rcases mem_pushed_newPair hu with ⟨ht, hround⟩ | hu
      <;> rcases mem_pushed_newPair hu' with ⟨ht', hround'⟩ | hu'
    · rw [ht, ht']
    · exact absurd (hround ▸ hu') (hlater u')
    · exact absurd (hround' ▸ hu) (hlater u)
    · exact h.oneStep u u' r hu hu'
  · obtain ⟨rfl, rfl⟩ | hu := mem_pushed_newPair hu
    · exact .inl ⟨_, find_insert_self _ _ _⟩
    · have hne : u ≠ t := fun hut => hfresh r (hut ▸ hu)
      refine (h.settled u r hu).imp_left fun ⟨r', hr'⟩ => ⟨r', ?_⟩
      exact (find_insert_ne _ _ hne).trans hr'

end

structure Ok (w : World P) : Prop where
  islands : ∀ i, IslandOk P w.merged (w.islands i)
  received : ∀ t, ∀ i ∈ w.pushes t, ∃ r, (t, r) ∈ (w.islands i).pushed
  quorums : ∀ t ∈ w.merged, ∀ i, ∃ r, (t, r) ∈ (w.islands i).pushed

theorem Ok.set (h : Ok w) (hs : IslandOk P w.merged s)
    (hpushed : (w.islands i).pushed ⊆ s.pushed) : Ok (w.set i s) := by
  have hgrow : ∀ j t, (∃ r, (t, r) ∈ (w.islands j).pushed) →
      ∃ r, (t, r) ∈ ((w.set i s).islands j).pushed := (forall_update_iff w.islands fun j x => ∀ t,
      (∃ r, (t, r) ∈ (w.islands j).pushed) → ∃ r, (t, r) ∈ x.pushed).2
      ⟨fun _ ⟨r, hr⟩ => ⟨r, hpushed hr⟩, fun _ _ _ => id⟩
  refine ⟨?_, fun t j hj => hgrow j t (h.received t j hj),
    fun t ht j => hgrow j t (h.quorums t ht j)⟩
  exact (forall_update_iff w.islands fun _ => IslandOk P w.merged).2 ⟨hs, fun j _ => h.islands j⟩

theorem ok_merge (h : Ok w) (hquorum : P.islands ≤ (w.pushes t).card) :
    Ok { w with merged := t :: w.merged } := by
  refine ⟨fun i => { h.islands i with
    settled := fun u r hu => ((h.islands i).settled u r hu).imp_right
      fun ⟨hm, hle⟩ => ⟨mem_cons_of_mem _ hm, hle⟩
    passed := fun k hk hlt => ((h.islands i).passed k hk hlt).imp
      fun _ ⟨hu, hm⟩ => ⟨hu, mem_cons_of_mem _ hm⟩ }, h.received, fun u hu i => ?_⟩
  rcases mem_cons.1 hu with rfl | hu
  · have hall : w.pushes u = Finset.univ := eq_univ_of_card _ (le_antisymm (card_le_univ _)
        ((Fintype.card_fin _).le.trans hquorum))
    exact h.received u i (hall ▸ mem_univ i)
  · exact h.quorums u hu i

theorem ok_receive (h : Ok w) (hsent : ∃ e ∈ (w.islands i).pushed, e.1 = t) : Ok { w with
      pushes := update w.pushes t (insert i (w.pushes t)) } := by
  refine { h with
    received := (forall_update_iff w.pushes fun u js =>
      ∀ j ∈ js, ∃ r, (u, r) ∈ (w.islands j).pushed).2 ⟨fun j hj => ?_, fun u _ => h.received u⟩ }
  rcases mem_insert.1 hj with rfl | hj
  · obtain ⟨e, he, rfl⟩ := hsent
    exact ⟨e.2, he⟩
  · exact h.received t j hj

theorem ok_exec (h : Ok w) (hcap : P.maxLocalRoundsAhead = some 1) {op : Op P}
    (honce : w.oncePerCut op = true) (hexec : w.exec op = some w') : Ok w' := by
  cases op with
  | launch =>
    obtain ⟨-, ⟨⟩⟩ := ite_none_right_eq_some.1 hexec
    exact { h with }
  | pull i t =>
    obtain ⟨ht, ⟨⟩⟩ := ite_none_right_eq_some.1 hexec
    refine h.set (ok_queuePull (h.islands i) ht.1) ?_
    dsimp only [queuePull]
    split
    · exact List.Subset.refl _
    · split <;> exact List.Subset.refl _
  | train i =>
    obtain ⟨⟨hidle, hblockers, hpushed⟩, ⟨⟩⟩ := ite_none_right_eq_some.1 hexec
    exact h.set (ok_train (h.islands i) hcap hidle hblockers hpushed) (List.Subset.refl _)
  | complete i =>
    obtain ⟨htraining, ⟨⟩⟩ := ite_none_right_eq_some.1 hexec
    exact h.set (ok_completeLocalRound (h.islands i) htraining) (List.Subset.refl _)
  | push i t =>
    obtain ⟨⟨-, hready, hnew, -⟩, ⟨⟩⟩ := ite_none_right_eq_some.1 hexec
    exact h.set (ok_newPair (h.islands i) (of_decide_eq_true honce) hready hnew)
      (subset_cons_self _ _)
  | receive i t =>
    obtain ⟨⟨hsent, -⟩, ⟨⟩⟩ := ite_none_right_eq_some.1 hexec
    exact ok_receive h hsent
  | merge t =>
    obtain ⟨⟨-, -, -, hquorum⟩, ⟨⟩⟩ := ite_none_right_eq_some.1 hexec
    exact ok_merge h hquorum
  | apply i t =>
    obtain ⟨⟨-, hmerged, hbase⟩, ⟨⟩⟩ := ite_none_right_eq_some.1 hexec
    exact h.set (ok_applyPair (h.islands i) hmerged hbase) (List.Subset.refl _)

theorem ok_start : Ok ({} : World P) :=
  ⟨fun _ => ⟨nofun, nofun, le_rfl, fun h => absurd rfl h, nofun, nofun, nofun,
    nofun, fun _ _ h => absurd h (Nat.not_lt_zero _)⟩, nofun, nofun⟩

/-- The rounds that the one island passed are matched with different rounds
of the other. -/
theorem Ok.started_le (h : Ok w) (j : Fin P.islands) :
    (w.islands i).started ≤ (w.islands j).localRound + 1 := by
  have hcard := card_le_card_of_forall_subsingleton (fun k m => ∃ t, (t, k) ∈ (w.islands i).pushed
      ∧ (t, m) ∈ (w.islands j).pushed) (s := Finset.Ico 1 (w.islands i).started)
    (t := Finset.Icc 1 (w.islands j).localRound) ?_ ?_
  · rw [Nat.card_Ico, Nat.card_Icc] at hcard
    omega
  · intro k hk
    obtain ⟨hk, hlt⟩ := mem_Ico.1 hk
    obtain ⟨t, ht, hmerged⟩ := (h.islands i).passed k hk hlt
    obtain ⟨m, hm⟩ := h.quorums t hmerged j
    obtain ⟨hpos, hle⟩ := (h.islands j).rounds t m hm
    exact ⟨m, mem_Icc.2 ⟨hpos, hle.trans (h.islands j).retained⟩, t, ht, hm⟩
  · rintro m - k ⟨-, t, ht, hm⟩ k' ⟨-, t', ht', hm'⟩
    obtain rfl := (h.islands j).oneStep t t' m hm hm'
    exact (h.islands i).oneRound t k k' ht ht'

/-- LEAD CAP 1, in the runs in which an island pushes once from a cut: what
an island completed or started is at most one round more than what any other
completed. -/
theorem lead_at_most_one (hcap : P.maxLocalRoundsAhead = some 1)
    (h : (oncePerCutRuns P).Reachable w) (i j : Fin P.islands) :
    (w.islands i).started ≤ (w.islands j).localRound + 1 :=
  (System.guarded_invariant (P := Ok) ok_start
    (fun _ _ _ hok honce hexec => ok_exec hok hcap honce hexec) h).started_le j

/-- Two islands and three fragments, all of them open at once. -/
abbrev threeFragments : Profile := ⟨2, 3, 1, 3, some 1, by decide⟩

/-- Both islands train a round, push the first fragment and go on. -/
def firstMerge : List (Op threeFragments) :=
  [.launch, .train 0, .train 1, .complete 0, .complete 1, .pull 0 1, .pull 1 1,
    .push 0 1, .push 1 1, .receive 0 1, .receive 1 1, .merge 1, .apply 0 1, .train 0]

theorem lead_at_most_one_sample :
    ∃ w, (oncePerCutRuns threeFragments).Reachable w ∧ (w.islands 0).started = 2
      ∧ (w.islands 0).started ≤ (w.islands 1).localRound + 1 := by
  obtain ⟨w, hreach, hstarted⟩ : ∃ w, (oncePerCutRuns threeFragments).Reachable w
      ∧ (w.islands 0).started = 2 := System.exists_reachable firstMerge (by decide +kernel)
  exact ⟨w, hreach, hstarted, lead_at_most_one rfl hreach 0 1⟩

/-- Island 1 answers the PULLs of three fragments from its first cut; they
reach island 0 one boundary after another. -/
def lateFor (t : Nat) : List (Op threeFragments) :=
  [.pull 0 t, .push 0 t, .receive 0 t, .merge t, .apply 0 t, .train 0]

def threeFromOneCut : List (Op threeFragments) :=
  [.launch, .launch, .launch, .train 0, .train 1, .complete 0, .complete 1,
    .pull 1 1, .pull 1 2, .pull 1 3, .push 1 1, .push 1 2, .push 1 3,
    .receive 1 1, .receive 1 2, .receive 1 3]
  ++ lateFor 1 ++ .complete 0 :: lateFor 2 ++ .complete 0 :: lateFor 3

/-- THREE ROUNDS AHEAD: island 0 trains its fourth round, and island 1 has
completed one. -/
theorem three_rounds_ahead : ∃ w, (runs threeFragments).Reachable w
    ∧ (w.islands 0).started = 4 ∧ (w.islands 1).localRound = 1 :=
  System.exists_reachable threeFromOneCut (by decide +kernel)

end Yeto.LeadCap
