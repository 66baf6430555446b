/-
Sharing positions by weight: the chairman assignment problem.

Positions go out one at a time, each to one of `k` streams with weights `w s`
of sum `W`; after `n` positions the share of stream `s` is `n * w s / W`. The
rule is Tijdeman's: a stream may get its next position when it is behind by
`1 / (2 * (k - 1))` or more, and of those that may, the one whose deadline
comes first gets it.

Some stream always may (`exists_eligible`), and none is ever ahead
(`Run.not_ahead`) or behind (`Run.not_behind`) by more than that. For one that
is behind at time `n`, look at the last pick whose deadline was `n` or later:
the streams with an earlier deadline have had every position since, more than
there were deadlines (`not_due`).
-/
import Mathlib.Algebra.Order.BigOperators.Group.Finset
import Mathlib.Algebra.BigOperators.Ring.Finset
import Mathlib.Tactic.Linarith
import Mathlib.Tactic.Ring

namespace Lib.Chairman

open List

variable {ι : Type*} (I : Finset ι) (w : ι → Int) (s : ι)

def total : Int := ∑ s ∈ I, w s

def scale : Int := 2 * ((I.card : Int) - 1)

/-- With `c` positions at time `n`, stream `s` is too late for the next. -/
def Due (n c : Int) : Prop := (scale I * (c + 1) - 1) * total I w < scale I * n * w s

variable {I w s}

theorem two_le_scale (hcard : 2 ≤ I.card) : 2 ≤ scale I := by
  unfold scale
  omega

theorem total_pos (hcard : 2 ≤ I.card) (hpos : ∀ s ∈ I, 0 < w s) : 0 < total I w :=
  Finset.sum_pos hpos (Finset.card_pos.1 (by omega))

theorem Due.mono {n c c' : Int} (hscale : 2 ≤ scale I) (hW : 0 < total I w)
    (hdue : Due I w s n c) (hle : c' ≤ c) : Due I w s n c' := by
  refine lt_of_le_of_lt (mul_le_mul_of_nonneg_right ?_ hW.le) hdue
  have := mul_le_mul_of_nonneg_left hle (by omega : 0 ≤ scale I)
  linarith

variable [DecidableEq ι] (I w)

/-- After the picks `h`, newest first, `s` may get the next position. -/
def Eligible (h : List ι) (s : ι) : Prop :=
  total I w ≤ scale I * (w s * (h.length + 1) - h.count s * total I w)

/-- The deadline for the next position of `s`, as a multiple of its weight. -/
def deadline (h : List ι) (s : ι) : Int := scale I * (h.count s + 1) - 1

structure Picks (h : List ι) (s : ι) : Prop where
  mem : s ∈ I
  eligible : Eligible I w h s
  earliest : ∀ t ∈ I, Eligible I w h t → deadline I h s * w t ≤ deadline I h t * w s

inductive Run : List ι → Prop
  | nil : Run []
  | cons {h : List ι} {s : ι} : Run h → Picks I w h s → Run (s :: h)

variable {I w} {h : List ι}

theorem run_cons : Run I w (s :: h) ↔ Run I w h ∧ Picks I w h s := by
  refine ⟨fun hrun => ?_, fun hrun => .cons hrun.1 hrun.2⟩
  cases hrun with
  | cons hrun hp => exact ⟨hrun, hp⟩

theorem Run.of_append {later base : List ι} (hrun : Run I w (later ++ base)) : Run I w base := by
  induction later with
  | nil => exact hrun
  | cons s later ih => exact ih (run_cons.1 hrun).1

theorem Run.mem (hrun : Run I w h) : ∀ s ∈ h, s ∈ I := by
  induction hrun with
  | nil => exact fun _ hs => (not_mem_nil hs).elim
  | cons _ hp ih => exact forall_mem_cons.2 ⟨hp.mem, ih⟩

theorem sum_count (hmem : ∀ s ∈ h, s ∈ I) : ∑ s ∈ I, (h.count s : Int) = h.length := by
  have hcount := Multiset.sum_count_eq_card (s := I) (m := (h : Multiset ι)) hmem
  simp only [Multiset.coe_count, Multiset.coe_card] at hcount
  exact_mod_cast hcount

/-- The picks since the last one that was not due at time `n`. -/
theorem exists_last (n : Int) (h : List ι) : ∃ later base, h = later ++ base
    ∧ (∀ s ∈ later, Due I w s n (h.count s - 1))
    ∧ (base = [] ∨ ∃ t e, base = t :: e ∧ ¬ Due I w t n (e.count t)) := by
  induction h with
  | nil => exact ⟨[], [], rfl, fun _ hs => (not_mem_nil hs).elim, .inl rfl⟩
  | cons s h ih =>
    by_cases hdue : Due I w s n (h.count s)
    · obtain ⟨later, base, rfl, hlater, hbase⟩ := ih
      refine ⟨s :: later, base, rfl, fun t ht => ?_, hbase⟩
      by_cases hts : t = s
      · subst hts
        rw [count_cons_self]
        push_cast
        rwa [add_sub_cancel_right]
      · rw [count_cons_of_ne (Ne.symm hts)]
        exact hlater t ((mem_cons.1 ht).resolve_left hts)
    · exact ⟨[], s :: h, rfl, fun _ ht => (not_mem_nil ht).elim, .inr ⟨s, h, rfl, hdue⟩⟩

variable (hcard : 2 ≤ I.card) (hpos : ∀ s ∈ I, 0 < w s)

include hcard hpos

/-- The deficits of all streams together are one position. -/
theorem exists_eligible (hmem : ∀ s ∈ h, s ∈ I) : ∃ s ∈ I, Eligible I w h s := by
  have hW := total_pos hcard hpos
  by_contra hnone
  have hlt : ∑ s ∈ I, scale I * (w s * (h.length + 1) - h.count s * total I w)
      < ∑ s ∈ I, total I w := by
    refine Finset.sum_lt_sum_of_nonempty (Finset.card_pos.1 (by omega)) fun s hs => ?_
    exact not_le.1 fun hel => hnone ⟨s, hs, hel⟩
  rw [← Finset.mul_sum, Finset.sum_sub_distrib, ← Finset.sum_mul, ← Finset.sum_mul,
    sum_count hmem, Finset.sum_const, nsmul_eq_mul] at hlt
  have hone : total I w * (h.length + 1) - h.length * total I w = total I w := by ring
  rw [show ∑ s ∈ I, w s = total I w from rfl, hone] at hlt
  have hle : (I.card : Int) ≤ scale I := by
    unfold scale
    omega
  exact absurd (mul_le_mul_of_nonneg_right hle hW.le) (not_le.2 hlt)

theorem Run.not_ahead (hrun : Run I w h) (hs : s ∈ I) :
    scale I * (h.count s * total I w - h.length * w s) ≤ (scale I - 1) * total I w := by
  have hW := total_pos hcard hpos
  have hscale := two_le_scale hcard
  induction hrun with
  | nil =>
    have := mul_nonneg (by omega : 0 ≤ scale I - 1) hW.le
    simpa using this
  | @cons h t hrun hp ih =>
    rw [length_cons]
    push_cast
    by_cases hst : s = t
    · subst hst
      have hel : total I w ≤ scale I * (w s * (h.length + 1) - h.count s * total I w) := hp.eligible
      rw [count_cons_self]
      push_cast
      linarith
    · rw [count_cons_of_ne (Ne.symm hst)]
      have := mul_nonneg (by omega : 0 ≤ scale I) (hpos s hs).le
      linarith

/-- If the streams of `A` had every position since `base` and are all due at
the end, `s` even for one more, then they are many, or were far behind. -/
theorem not_due (slack : Int) {later base : List ι} {A : Finset ι} (hA : A ⊆ I)
    (hlater : ∀ t ∈ later, t ∈ A) (hs : s ∈ A)
    (hend : ∀ t ∈ A, Due I w t (later ++ base).length
      ((later ++ base).count t - if t = s then 0 else 1))
    (hbase : ∀ t ∈ A, scale I * w t * base.length
      ≤ scale I * base.count t * total I w + slack) :
    scale I * total I w < A.card * (total I w + slack) := by
  have hscale := two_le_scale hcard
  have hlt : ∑ t ∈ A, scale I * total I w * (later.count t + if t = s then 1 else 0)
      < ∑ t ∈ A, (scale I * later.length * w t + (total I w + slack)) := by
    refine Finset.sum_lt_sum_of_nonempty ⟨s, hs⟩ fun t ht => ?_
    have h1 := hend t ht
    have h2 := hbase t ht
    unfold Due at h1
    rw [count_append, length_append] at h1
    push_cast at h1
    split at h1
    · next heq =>
      rw [if_pos heq]
      linarith
    · next hne =>
      rw [if_neg hne]
      linarith
  rw [← Finset.mul_sum, Finset.sum_add_distrib, Finset.sum_add_distrib, sum_count hlater,
    Finset.sum_ite_eq', if_pos hs, ← Finset.mul_sum, Finset.sum_const, nsmul_eq_mul] at hlt
  have hsub : ∑ t ∈ A, w t ≤ total I w :=
    Finset.sum_le_sum_of_subset_of_nonneg hA fun t ht _ => (hpos t ht).le
  have := mul_le_mul_of_nonneg_left hsub (by positivity : 0 ≤ scale I * (later.length : Int))
  linarith

/-- When a pick not due at `n` was made, no stream due at `n` might go on. -/
theorem Picks.not_eligible {t : ι} {n : Int} (hp : Picks I w h t) (hnot : ¬ Due I w t n (h.count t))
    (hs : s ∈ I) (hdue : Due I w s n (h.count s)) : ¬ Eligible I w h s := by
  intro hel
  have hW := total_pos hcard hpos
  have hearliest := mul_le_mul_of_nonneg_right (hp.earliest s hs hel) hW.le
  have hlate := mul_le_mul_of_nonneg_right (not_lt.1 hnot) (hpos s hs).le
  have hsoon := mul_lt_mul_of_pos_right hdue (hpos t hp.mem)
  unfold deadline at hearliest
  linarith

theorem Run.not_behind (hrun : Run I w h) (hs : s ∈ I) :
    scale I * (h.length * w s - h.count s * total I w) ≤ (scale I - 1) * total I w := by
  have hW := total_pos hcard hpos
  have hscale := two_le_scale hcard
  by_contra hlate
  have hdue : Due I w s h.length (h.count s) := by
    unfold Due
    linarith
  obtain ⟨later, base, rfl, hlater, hbase⟩ := exists_last (I := I) (w := w) h.length h
  have hcount : ∀ t, ((later ++ base).count t : Int) = later.count t + base.count t := by
    intro t
    rw [count_append]
    exact Nat.cast_add ..
  -- the streams due at the end, with what they had at `base`
  obtain ⟨A, mem_A⟩ : ∃ A : Finset ι, ∀ t, t ∈ A ↔ t ∈ I
      ∧ Due I w t (later ++ base).length (base.count t) := by
    classical exact ⟨I.filter _, fun t => Finset.mem_filter⟩
  have hA : A ⊆ I := fun t ht => ((mem_A t).1 ht).1
  have hmem : ∀ t ∈ later, t ∈ A := by
    intro t ht
    have := count_pos_iff.2 ht
    refine (mem_A t).2 ⟨hrun.mem t (mem_append_left _ ht), (hlater t ht).mono hscale hW ?_⟩
    rw [hcount]
    omega
  have hsA : s ∈ A := by
    refine (mem_A s).2 ⟨hs, hdue.mono hscale hW ?_⟩
    rw [hcount]
    omega
  have hend : ∀ t ∈ A, Due I w t (later ++ base).length
      ((later ++ base).count t - if t = s then 0 else 1) := by
    intro t ht
    split
    · next heq =>
      subst heq
      rwa [sub_zero]
    by_cases htl : t ∈ later
    · exact hlater t htl
    · refine ((mem_A t).1 ht).2.mono hscale hW ?_
      rw [hcount, count_eq_zero_of_not_mem htl]
      omega
  rcases hbase with rfl | ⟨t, e, rfl, hnot⟩
  · have hfew := not_due hcard hpos 0 hA hmem hsA hend fun t _ => by simp
    have hk : (A.card : Int) ≤ scale I := by
      have := Finset.card_le_card hA
      unfold scale
      omega
    have := mul_le_mul_of_nonneg_right hk hW.le
    linarith
  · have htA : t ∉ A := by
      intro ht
      refine hnot (((mem_A t).1 ht).2.mono hscale hW ?_)
      rw [count_cons_self]
      omega
    obtain ⟨-, hp⟩ := run_cons.1 hrun.of_append
    have hfew := not_due hcard hpos (total I w) hA hmem hsA hend fun x hx => by
      obtain ⟨hxI, hxdue⟩ := (mem_A x).1 hx
      have hne : t ≠ x := fun heq => htA (heq ▸ hx)
      rw [count_cons_of_ne hne] at hxdue ⊢
      have := hp.not_eligible hcard hpos hnot hxI hxdue
      unfold Eligible at this
      rw [length_cons]
      push_cast
      linarith
    have hk : (A.card : Int) ≤ I.card - 1 := by
      have := Finset.card_lt_card ((Finset.ssubset_iff_of_subset hA).2 ⟨t, hp.mem, htA⟩)
      omega
    have := mul_le_mul_of_nonneg_right hk hW.le
    unfold scale at hfew
    linarith

end Lib.Chairman
