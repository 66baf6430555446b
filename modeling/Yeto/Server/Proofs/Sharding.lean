/-
One head, many shards: `N` processes over a layout of `P ≥ N` fragments behave
as one.

`Head.bound` is monotone from `0` to `P`, so every fragment lies between two
neighbours (`Head.exists_owner`). The steps of a shard are the values of
`walk`, which iterates `stepAfter`. The closed forms are then compared with the
walk: `roundNumber` with the index, `expectedVersion` with the versions.
-/
import Yeto.Server.Proofs.Shard
import Mathlib.Order.WellFounded

namespace Yeto.Server

open ShardPlan

variable {fragments k p q r t : Nat}

theorem exists_neighbours {f : Nat → Nat} {n : Nat} (h0 : f 0 ≤ p) (h : p < f n) :
    ∃ i < n, f i ≤ p ∧ p < f (i + 1) := by
  induction n with
  | zero => exact absurd h (not_lt.2 h0)
  | succ n ih =>
    by_cases hlt : p < f n
    · obtain ⟨i, hi, hbounds⟩ := ih hlt
      exact ⟨i, Nat.lt_succ_of_lt hi, hbounds⟩
    · exact ⟨n, Nat.lt_succ_self n, not_lt.1 hlt, h⟩

namespace ShardSchedule

/-- The step a shard stands at after `k` rounds; 0 before the first. -/
def walk (s : ShardSchedule) : Nat → Nat
  | 0 => 0
  | k + 1 => s.stepAfter (s.walk k)

/-- The versions of a shard's fragments after `k` rounds: the commit of a
step makes it the version of its fragment. -/
def versionsAfter (s : ShardSchedule) : Nat → Nat → Nat
  | 0, _ => 0
  | k + 1, p =>
    if s.fragmentForStep (s.walk (k + 1)) = p then s.walk (k + 1)
    else s.versionsAfter k p

variable (s : ShardSchedule)

theorem walk_strictMono : StrictMono s.walk :=
  strictMono_nat_of_lt_succ fun k => s.lt_stepAfter (s.walk k)

theorem ownsStep_walk (k : Nat) : s.ownsStep (s.walk (k + 1)) = true :=
  s.ownsStep_stepAfter (s.walk k)

theorem exists_walk (t : Nat) : ∃ k, s.walk k ≤ t ∧ t < s.walk (k + 1) := by
  obtain ⟨k, -, hk⟩ := exists_neighbours (f := s.walk) (Nat.zero_le t)
    (StrictMono.le_apply (f := s.walk) s.walk_strictMono)
  exact ⟨k, hk⟩

theorem not_ownsStep_between (h1 : s.walk k < t) (h2 : t < s.walk (k + 1)) :
    s.ownsStep t = false := by
  unfold ownsStep
  rw [(s.stepAfter_spec (s.walk k)).2 t h1 h2, Bool.and_false]

theorem ownsStep_iff_walk (t : Nat) : s.ownsStep t = true ↔ ∃ k, s.walk (k + 1) = t := by
  constructor
  · intro h
    have hpos := ((s.ownsStep_iff t).1 h).1
    obtain ⟨k, hle, hlt⟩ := s.exists_walk t
    rcases Nat.lt_or_eq_of_le hle with hlt' | heq
    · rw [s.not_ownsStep_between hlt' hlt] at h
      cases h
    · cases k with
      | zero => exact absurd heq (ne_of_lt hpos)
      | succ k => exact ⟨k, heq⟩
  · rintro ⟨k, rfl⟩
    exact s.ownsStep_walk k

theorem exists_sweep (h : s.ownsStep t = true) :
    ∃ q r, t = s.fragments * q + r + 1 ∧ s.first ≤ r ∧ r < s.stop := by
  obtain ⟨hpos, howns⟩ := (s.ownsStep_iff t).1 h
  obtain ⟨h1, h2⟩ := (s.owns_iff _).1 howns
  refine ⟨(t - 1) / s.fragments, s.fragmentForStep t, ?_, h1, h2⟩
  have := Nat.div_add_mod (t - 1) s.fragments
  unfold fragmentForStep
  omega

theorem ownsStep_sweep (h1 : s.first ≤ r) (h2 : r < s.stop) :
    s.ownsStep (s.fragments * q + r + 1) = true := by
  have hr : r < s.fragments := lt_of_lt_of_le h2 s.within
  refine (s.ownsStep_iff _).2 ⟨Nat.succ_pos _, ?_⟩
  have : s.fragmentForStep (s.fragments * q + r + 1) = r := s.mod_of_eq rfl hr
  rw [this, owns_iff]
  exact ⟨h1, h2⟩

theorem lastStep_eq (total : Nat) : s.lastStep total
      = Nat.findGreatest (fun t => s.ownsStep t = true) total := by
  have hne := s.nonempty
  have hle := s.within
  symm
  rw [Nat.findGreatest_eq_iff]
  cases total with
  | zero =>
    refine ⟨Nat.le_refl 0, fun h => absurd rfl h, fun t h1 h2 => ?_⟩
    exact absurd h2 (not_le.2 h1)
  | succ n =>
    obtain ⟨q, r, hr, hn⟩ : ∃ q r, r < s.fragments ∧ n = s.fragments * q + r :=
      ⟨n / s.fragments, n % s.fragments, Nat.mod_lt _ s.fragments_pos, (Nat.div_add_mod _ _).symm⟩
    have hmod : n % s.fragments = r := s.mod_of_eq hn hr
    have hdiv : n / s.fragments = q := by
      rw [hn, Nat.mul_add_div s.fragments_pos, Nat.div_eq_of_lt hr, Nat.add_zero]
    -- A later sweep starts past this one.
    have hsweep : ∀ {q' : Nat}, q < q' →
        s.fragments * q + s.fragments ≤ s.fragments * q' := fun h =>
      Nat.mul_succ s.fragments q ▸ Nat.mul_le_mul_left s.fragments h
    unfold lastStep
    rw [if_neg (Nat.succ_ne_zero n), Nat.add_sub_cancel]
    dsimp only
    rw [hmod, hdiv, Nat.mul_comm q]
    split
    · next hge =>
      -- The last owned step of this sweep that is within the total.
      refine ⟨by omega, fun _ => ?_, fun t h1 h2 ht => ?_⟩
      · exact s.ownsStep_sweep (by omega) (by omega)
      · obtain ⟨q', r', rfl, h3, h4⟩ := s.exists_sweep ht
        rcases Nat.lt_trichotomy q' q with h | rfl | h
        · have := Nat.mul_le_mul_left s.fragments h
          rw [Nat.mul_succ] at this
          omega
        · omega
        · have := hsweep h
          omega
    · next hlt =>
      split
      · next hq =>
        refine ⟨Nat.zero_le _, fun h => absurd rfl h, fun t h1 h2 ht => ?_⟩
        obtain ⟨q', r', rfl, h3, h4⟩ := s.exists_sweep ht
        rcases Nat.eq_zero_or_pos q' with rfl | h
        · subst hq
          omega
        · have := hsweep (hq ▸ h)
          omega
      · next hq =>
        -- Nothing of this sweep is within the total: the last owned
        -- step ends the sweep before.
        obtain ⟨q, rfl⟩ : ∃ k, q = k + 1 := ⟨q - 1, by omega⟩
        have hstep : s.fragments * (q + 1) = s.fragments * q + s.fragments := Nat.mul_succ _ _
        have hlast : (q + 1 - 1) * s.fragments + s.stop = s.fragments * q + (s.stop - 1) + 1 := by
          rw [Nat.add_sub_cancel, Nat.mul_comm]
          omega
        rw [hlast]
        refine ⟨by omega, fun _ => ?_, fun t h1 h2 ht => ?_⟩
        · exact s.ownsStep_sweep (by omega) (by omega)
        · obtain ⟨q', r', rfl, h3, h4⟩ := s.exists_sweep ht
          rcases Nat.lt_trichotomy q' (q + 1) with h | rfl | h
          · have := Nat.mul_le_mul_left s.fragments (Nat.le_of_lt_succ h)
            omega
          · omega
          · have := hsweep h
            omega

theorem roundNumber_sweep (h : r < s.fragments) :
    s.roundNumber (s.fragments * q + r + 1) = q * (s.stop - s.first) + (r - s.first) + 1 := by
  unfold roundNumber
  rw [Nat.add_sub_cancel, s.mod_of_eq rfl h, Nat.mul_add_div s.fragments_pos, Nat.div_eq_of_lt h]
  rfl

/-- The step after an owned one stands one place further in the range, or
at the start of the next sweep. -/
theorem stepAfter_sweep (h1 : s.first ≤ r) (h2 : r < s.stop) :
    s.stepAfter (s.fragments * q + r + 1) = if r + 1 < s.stop then s.fragments * q + (r + 1) + 1
        else s.fragments * (q + 1) + s.first + 1 := by
  have hle := s.within
  have hnext : s.fragments * (q + 1) = s.fragments * q + s.fragments := Nat.mul_succ _ _
  have hmod : r + 1 < s.fragments → (s.fragments * q + r + 1) % s.fragments = r + 1 := fun h =>
    s.mod_of_eq (q := q) (by omega) h
  dsimp only [stepAfter]
  rcases lt_or_ge (r + 1) s.stop with h | h
  · rw [hmod (by omega), if_neg (by omega), if_pos h, if_pos h]
    omega
  · rw [if_neg (not_lt.2 h)]
    rcases Nat.lt_or_eq_of_le (le_trans h2 hle) with hr | hr
    · rw [hmod hr, if_neg (by omega), if_neg (by omega)]
      omega
    · rw [s.mod_of_eq (q := q + 1) (r := 0) (by omega) s.fragments_pos]
      split
      · omega
      · rw [if_pos (by omega)]
        omega

theorem roundNumber_walk (k : Nat) : s.roundNumber (s.walk (k + 1)) = k + 1 := by
  have hne := s.nonempty
  have hle := s.within
  induction k with
  | zero =>
    have hfirst : s.walk 1 = s.fragments * 0 + s.first + 1 := by
      unfold walk walk stepAfter
      dsimp only
      rw [Nat.zero_mod]
      split
      · omega
      · rw [if_pos (by omega)]
        omega
    rw [hfirst, s.roundNumber_sweep (by omega)]
    omega
  | succ k ih =>
    obtain ⟨q, r, ht, h1, h2⟩ := s.exists_sweep (s.ownsStep_walk k)
    rw [ht, s.roundNumber_sweep (by omega)] at ih
    have hwalk : s.walk (k + 2) = s.stepAfter (s.walk (k + 1)) := rfl
    rw [hwalk, ht, s.stepAfter_sweep h1 h2]
    split
    · rw [s.roundNumber_sweep (by omega)]
      omega
    · rw [s.roundNumber_sweep (by omega), Nat.succ_mul]
      omega

theorem expectedVersion_eq_last (hp : p < s.fragments) (g : Nat) : s.expectedVersion p g
      = Nat.findGreatest (fun t => 1 ≤ t ∧ s.fragmentForStep t = p) g := by
  induction g with
  | zero => rw [s.expectedVersion_zero, Nat.findGreatest_zero]
  | succ g ih =>
    rw [s.expectedVersion_succ hp, Nat.findGreatest_succ, ih]
    simp only [Nat.le_add_left, true_and]

theorem versionsAfter_eq (hp : s.owns p = true) (k : Nat) :
    s.versionsAfter k p = s.expectedVersion p (s.walk k) := by
  induction k with
  | zero => exact (s.expectedVersion_zero p).symm
  | succ k ih =>
    have hwalk : s.walk (k + 1) = s.stepAfter (s.walk k) := rfl
    rw [hwalk, s.expectedVersion_stepAfter hp, ← ih]
    rfl

theorem versionsAfter_at (hp : s.owns p = true) (h1 : s.walk k ≤ t) (h2 : t < s.walk (k + 1)) :
    s.versionsAfter k p = s.expectedVersion p t := by
  rw [s.versionsAfter_eq hp]
  refine (s.expectedVersion_eq (s.lt_of_owns hp) h1 fun u h3 h4 hu => ?_).symm
  have := (s.stepAfter_spec (s.walk k)).2 u h3 (lt_of_le_of_lt h4 h2)
  rw [hu, hp] at this
  cases this

theorem walk_unsharded {h : 0 < fragments} : (unsharded fragments h).walk k = k := by
  induction k with
  | zero => rfl
  | succ k ih =>
    have hlt : k % (unsharded fragments h).fragments
        < (unsharded fragments h).stop := Nat.mod_lt _ h
    have hge : ¬ k % (unsharded fragments h).fragments
        < (unsharded fragments h).first := Nat.not_lt_zero _
    unfold walk stepAfter
    rw [ih, if_neg hge, if_pos hlt]

theorem versionsAfter_unsharded (h : 0 < fragments) (hp : p < fragments) :
    (unsharded fragments h).versionsAfter t p = (unsharded fragments h).expectedVersion p t := by
  have howns : (unsharded fragments h).owns p = true :=
    ((unsharded fragments h).owns_iff p).2 ⟨Nat.zero_le p, hp⟩
  rw [(unsharded fragments h).versionsAfter_eq howns, walk_unsharded]

end ShardSchedule

structure Head where
  count : Nat
  fragments : Nat
  pos : 0 < count
  enough : count ≤ fragments

namespace Head

variable (head : Head)

theorem fragments_pos : 0 < head.fragments := lt_of_lt_of_le head.pos head.enough

def shard (i : Fin head.count) : ShardSchedule :=
  { first := i * head.fragments / head.count
    stop := (i + 1) * head.fragments / head.count
    fragments := head.fragments
    nonempty := ShardPlan.range_nonempty i.isLt head.enough
    within := ShardPlan.range_within head.fragments i.isLt }

theorem schedule_eq (i : Fin head.count) : (new i head.count).bind
        (fun plan => plan.schedule head.fragments)
      = .ok (head.shard i) := by
  unfold new
  rw [if_neg (Nat.ne_of_gt head.pos), dif_pos i.isLt]
  show schedule _ _ = _
  unfold schedule
  rw [dif_pos head.enough]
  rfl

def bound (i : Nat) : Nat := i * head.fragments / head.count

theorem bound_mono : Monotone head.bound := fun _ _ h =>
  Nat.div_le_div_right (Nat.mul_le_mul_right _ h)

theorem owns_shard (i : Fin head.count) (p : Nat) : (head.shard i).owns p = true
      ↔ head.bound i ≤ p ∧ p < head.bound (i + 1) :=
  (head.shard i).owns_iff p

theorem exists_owner (h : p < head.fragments) : ∃ i, (head.shard i).owns p = true := by
  rw [← Nat.mul_div_cancel_left head.fragments head.pos] at h
  have h0 : head.bound 0 ≤ p := by simp [bound]
  obtain ⟨i, hi, hbounds⟩ := exists_neighbours h0 h
  exact ⟨⟨i, hi⟩, (head.owns_shard ⟨i, hi⟩ p).2 hbounds⟩

theorem owner_unique {i j : Fin head.count} (hi : (head.shard i).owns p = true)
    (hj : (head.shard j).owns p = true) : i = j := by
  obtain ⟨hi1, hi2⟩ := (head.owns_shard i p).1 hi
  obtain ⟨hj1, hj2⟩ := (head.owns_shard j p).1 hj
  apply Fin.ext
  rcases Nat.lt_trichotomy i.val j.val with h | h | h
  · have := head.bound_mono (Nat.succ_le_of_lt h)
    exact absurd (le_trans this hj1) (not_le.2 hi2)
  · exact h
  · have := head.bound_mono (Nat.succ_le_of_lt h)
    exact absurd (le_trans this hi1) (not_le.2 hj2)

theorem existsUnique_step (h : 1 ≤ t) : ∃! i, (head.shard i).ownsStep t = true := by
  obtain ⟨i, hi⟩ :=
    head.exists_owner (Nat.mod_lt (t - 1) head.fragments_pos)
  refine ⟨i, ((head.shard i).ownsStep_iff t).2 ⟨h, hi⟩, fun j hj => ?_⟩
  exact head.owner_unique (((head.shard j).ownsStep_iff t).1 hj).2 hi

theorem mem_owned_shard (i : Fin head.count) (p : Nat) :
    p ∈ (head.shard i).owned ↔ (head.shard i).owns p = true := (head.shard i).mem_owned p

/-- Sharding does not show: the ranges partition the fragments, every step
runs on the one shard that owns its fragment, each shard's closed forms
describe the walk it makes, and after a shard has passed step `t` its
fragments have the versions one unsharded process gives them. -/
theorem sharding_invisible :
    (∀ i : Fin head.count, (ShardPlan.new i head.count).bind
        (fun plan => plan.schedule head.fragments) = .ok (head.shard i))
    -- The ranges are nonempty, disjoint and cover the fragments.
    ∧ (∀ i, (head.shard i).owned ≠ [])
    ∧ (∀ i j p, p ∈ (head.shard i).owned → p ∈ (head.shard j).owned → i = j)
    ∧ (∀ p, p < head.fragments ↔ ∃ i, p ∈ (head.shard i).owned)
    -- A step has one owner: the shard that owns its fragment.
    ∧ (∀ t, 1 ≤ t → (∃! i, (head.shard i).ownsStep t = true)
      ∧ ∀ i, (head.shard i).ownsStep t = true ↔ (t - 1) % head.fragments ∈ (head.shard i).owned)
    ∧ ∀ i,
      -- The walk enumerates the owned steps in increasing order.
      (∀ k, (head.shard i).walk k < (head.shard i).walk (k + 1))
      ∧ (∀ t, (head.shard i).ownsStep t = true
        ↔ ∃ k, (head.shard i).walk (k + 1) = t) ∧ (∀ total, (head.shard i).lastStep total
        = Nat.findGreatest (fun t => (head.shard i).ownsStep t = true) total)
      ∧ (∀ k, (head.shard i).roundNumber ((head.shard i).walk (k + 1)) = k + 1)
      ∧ ∀ p ∈ (head.shard i).owned,
        (∀ g, (head.shard i).expectedVersion p g = Nat.findGreatest
          (fun t => 1 ≤ t ∧ (head.shard i).fragmentForStep t = p) g)
        -- The shard has passed `t`: its next step is beyond it.
        ∧ ∀ t k, (head.shard i).walk k ≤ t → t < (head.shard i).walk (k + 1) →
          (head.shard i).versionsAfter k p
            = (ShardSchedule.unsharded head.fragments head.fragments_pos).versionsAfter t p := by
  refine ⟨head.schedule_eq, fun i h => ?_, fun i j p hi hj => ?_,
    fun p => ⟨fun h => ?_, ?_⟩, fun t ht => ⟨head.existsUnique_step ht,
      fun i => ?_⟩, fun i => ⟨fun k => ?_, (head.shard i).ownsStep_iff_walk,
      (head.shard i).lastStep_eq, (head.shard i).roundNumber_walk,
      fun p hp => ⟨?_, fun t k h1 h2 => ?_⟩⟩⟩
  · have hfirst : (head.shard i).first ∈ (head.shard i).owned :=
      (head.mem_owned_shard i _).2 (((head.shard i).owns_iff _).2
        ⟨le_rfl, (head.shard i).nonempty⟩)
    rw [h] at hfirst
    exact List.not_mem_nil hfirst
  · exact head.owner_unique ((head.mem_owned_shard i p).1 hi)
      ((head.mem_owned_shard j p).1 hj)
  · obtain ⟨i, hi⟩ := head.exists_owner h
    exact ⟨i, (head.mem_owned_shard i p).2 hi⟩
  · rintro ⟨i, hi⟩
    exact (head.shard i).lt_of_owns ((head.mem_owned_shard i p).1 hi)
  · rw [(head.shard i).ownsStep_iff, mem_owned_shard]
    exact and_iff_right ht
  · exact (head.shard i).walk_strictMono (Nat.lt_succ_self k)
  · exact (head.shard i).expectedVersion_eq_last
      ((head.shard i).lt_of_owns ((head.mem_owned_shard i p).1 hp))
  · have howns := (head.mem_owned_shard i p).1 hp
    rw [(head.shard i).versionsAfter_at howns h1 h2,
      ShardSchedule.versionsAfter_unsharded head.fragments_pos
        ((head.shard i).lt_of_owns howns)]
    rfl

end Head

end Yeto.Server
