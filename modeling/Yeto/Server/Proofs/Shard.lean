/-
The arithmetic of a shard's schedule.

`stepAfter` is THE next owned step: it is owned, it lies after its
argument, and no owned step lies between. `expectedVersion p` moves to
`t` at the steps `t` that merge `p` and stays put at all others, so it is
constant from one owned step to the next on every fragment but one.
-/
import Yeto.Server.Shard

namespace Yeto.Server.ShardSchedule

variable (s : ShardSchedule) {p t : Nat}

theorem fragments_pos : 0 < s.fragments := by
  have := s.nonempty
  have := s.within
  omega

theorem owns_iff (p : Nat) : s.owns p = true ↔ s.first ≤ p ∧ p < s.stop := decide_eq_true_iff

theorem lt_of_owns (h : s.owns p = true) : p < s.fragments := by
  have := (s.owns_iff p).1 h
  have := s.within
  omega

theorem mem_owned (p : Nat) : p ∈ s.owned ↔ s.owns p = true := by
  unfold owned
  rw [List.mem_filter, List.mem_range, decide_eq_true_iff, owns_iff]
  exact And.comm

theorem fragmentForStep_lt (t : Nat) : s.fragmentForStep t < s.fragments :=
  Nat.mod_lt _ s.fragments_pos

theorem ownsStep_iff (t : Nat) :
    s.ownsStep t = true ↔ 1 ≤ t ∧ s.owns (s.fragmentForStep t) = true := by
  unfold ownsStep
  rw [Bool.and_eq_true, decide_eq_true_iff]

theorem mod_of_eq {a q r : Nat} (h : a = s.fragments * q + r)
    (hr : r < s.fragments) : a % s.fragments = r := by rw [h, Nat.mul_add_mod, Nat.mod_eq_of_lt hr]

theorem lt_stepAfter (t : Nat) : t < s.stepAfter t := by
  dsimp only [stepAfter]
  split
  · omega
  · split <;> omega

/-- The next step of a shard, and none of its own between. -/
theorem stepAfter_spec (t : Nat) : s.owns (s.fragmentForStep (s.stepAfter t)) = true
      ∧ ∀ u, t < u → u < s.stepAfter t → s.owns (s.fragmentForStep u) = false := by
  obtain ⟨q, r, hr, ht⟩ : ∃ q r, r < s.fragments ∧ t = s.fragments * q + r :=
    ⟨t / s.fragments, t % s.fragments, Nat.mod_lt _ s.fragments_pos, (Nat.div_add_mod _ _).symm⟩
  have hpos : t % s.fragments = r := s.mod_of_eq ht hr
  have hne := s.nonempty
  have hle := s.within
  have hnext : s.fragments * (q + 1) = s.fragments * q + s.fragments := by
    ring
  -- An owned fragment is between `first` and `stop`; the three cases are
  -- those of the definition, by where `t` stands in its sweep.
  have hin : ∀ {u : Nat} (q' r' : Nat), u - 1 = s.fragments * q' + r' →
      r' < s.fragments → s.first ≤ r' → r' < s.stop → s.owns (s.fragmentForStep u) = true := by
    intro u q' r' hu hr' h1 h2
    unfold fragmentForStep
    rw [s.mod_of_eq hu hr', owns_iff]
    exact ⟨h1, h2⟩
  have hout : ∀ {u : Nat} (q' r' : Nat), u - 1 = s.fragments * q' + r' →
      r' < s.fragments → r' < s.first ∨ s.stop ≤ r' → s.owns (s.fragmentForStep u) = false := by
    intro u q' r' hu hr' h
    unfold fragmentForStep
    rw [s.mod_of_eq hu hr', Bool.eq_false_iff, ne_eq, owns_iff]
    omega
  dsimp only [stepAfter]
  rw [hpos]
  split
  · next hlt =>
    refine ⟨hin q s.first (by omega) (by omega) le_rfl hne, fun u h1 h2 => ?_⟩
    exact hout q (u - 1 - s.fragments * q) (by omega) (by omega) (.inl (by omega))
  · split
    · next hge hlt =>
      refine ⟨hin q r (by omega) hr (by omega) hlt, fun u h1 h2 => ?_⟩
      omega
    · next hge hge' =>
      refine ⟨hin (q + 1) s.first (by omega) (by omega) le_rfl hne, fun u h1 h2 => ?_⟩
      by_cases hu : u - 1 < s.fragments * (q + 1)
      · exact hout q (u - 1 - s.fragments * q) (by omega) (by omega) (.inr (by omega))
      · exact hout (q + 1) (u - 1 - s.fragments * (q + 1)) (by omega) (by omega) (.inl (by omega))

theorem ownsStep_stepAfter (t : Nat) : s.ownsStep (s.stepAfter t) = true := by
  have h1 := s.lt_stepAfter t
  exact (s.ownsStep_iff _).2 ⟨by omega, (s.stepAfter_spec t).1⟩

/-- No owned step is skipped. -/
theorem stepAfter_le {u : Nat} (hown : s.ownsStep u = true) (hlt : t < u) : s.stepAfter t ≤ u := by
  by_contra hgt
  have hnot := (s.stepAfter_spec t).2 u hlt (Nat.lt_of_not_le hgt)
  rw [((s.ownsStep_iff u).1 hown).2] at hnot
  cases hnot

/-- A version moves at the steps of its fragment. -/
theorem expectedVersion_succ (hp : p < s.fragments) (g : Nat) :
    s.expectedVersion p (g + 1) = if s.fragmentForStep (g + 1) = p then g + 1
        else s.expectedVersion p g := by
  have hpos := s.fragments_pos
  obtain ⟨q, r, hr, hg⟩ : ∃ q r, r < s.fragments ∧ g = s.fragments * q + r :=
    ⟨g / s.fragments, g % s.fragments, Nat.mod_lt _ hpos, (Nat.div_add_mod _ _).symm⟩
  have hfrag : s.fragmentForStep (g + 1) = r := by
    exact s.mod_of_eq (q := q) (by omega) hr
  -- The whole sweeps since `p`'s first merge.
  have hdiv : ∀ {a : Nat} (q' r' : Nat), a = s.fragments * q' + r' →
      r' < s.fragments → a / s.fragments * s.fragments = s.fragments * q' := by
    intro a q' r' ha hr'
    rw [ha, Nat.mul_add_div hpos, Nat.div_eq_of_lt hr', Nat.add_zero, Nat.mul_comm]
  rw [hfrag]
  unfold expectedVersion
  rcases Nat.lt_trichotomy r p with hlt | heq | hgt
  · rw [if_neg (by omega : ¬ r = p)]
    cases q with
    | zero => rw [if_pos (by omega), if_pos (by omega)]
    | succ q =>
      have hstep : s.fragments * (q + 1) = s.fragments * q + s.fragments := by ring
      rw [if_neg (by omega), if_neg (by omega), hdiv q (s.fragments + r - p) (by omega) (by omega),
        hdiv q (s.fragments + r - p - 1) (by omega) (by omega)]
  · rw [if_pos heq, if_neg (by omega), hdiv q 0 (by omega) hpos]
    omega
  · rw [if_neg (by omega : ¬ r = p), if_neg (by omega), if_neg (by omega),
      hdiv q (r - p) (by omega) (by omega), hdiv q (r - p - 1) (by omega) (by omega)]

theorem expectedVersion_zero (p : Nat) : s.expectedVersion p 0 = 0 := by
  unfold expectedVersion
  rw [if_pos (Nat.succ_pos p)]

theorem expectedVersion_self (ht : 1 ≤ t) : s.expectedVersion (s.fragmentForStep t) t = t := by
  obtain ⟨g, rfl⟩ : ∃ g, t = g + 1 := ⟨t - 1, by omega⟩
  rw [s.expectedVersion_succ (s.fragmentForStep_lt _), if_pos rfl]

/-- And nowhere else. -/
theorem expectedVersion_eq {g g' : Nat} (hp : p < s.fragments) (hle : g ≤ g')
    (h : ∀ u, g < u → u ≤ g' → s.fragmentForStep u ≠ p) :
    s.expectedVersion p g' = s.expectedVersion p g := by
  induction g', hle using Nat.le_induction with
  | base => rfl
  | succ k hk ih =>
    rw [s.expectedVersion_succ hp, if_neg (h (k + 1) (by omega) (by omega)),
      ih fun u h1 h2 => h u h1 (by omega)]

/-- The versions along the steps of a shard. -/
theorem expectedVersion_stepAfter (hp : s.owns p = true) (g : Nat) :
    s.expectedVersion p (s.stepAfter g)
      = if s.fragmentForStep (s.stepAfter g) = p then s.stepAfter g
        else s.expectedVersion p g := by
  have hlt := s.lt_stepAfter g
  split
  · next h =>
    rw [← h]
    exact s.expectedVersion_self (by omega)
  · next h =>
    refine s.expectedVersion_eq (s.lt_of_owns hp) hlt.le fun u h1 h2 hu => ?_
    rcases Nat.lt_or_eq_of_le h2 with h2 | h2
    · have := (s.stepAfter_spec g).2 u h1 h2
      rw [hu, hp] at this
      cases this
    · exact h (h2 ▸ hu)

end Yeto.Server.ShardSchedule
