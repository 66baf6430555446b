/-
Half-open intervals of naturals as multisets, tagged or not, and sums over the
entries of a list that is updated in place. Splitting a range at a point inside
it is an equation of multisets (`tagged_split`), so conservation needs no
reasoning about individual numbers.
-/
import Mathlib.Algebra.Order.BigOperators.Group.Finset
import Mathlib.Order.Interval.Finset.Nat

namespace Lib

open Multiset Finset

open List

/-- The numbers of an interval, each with a tag. -/
def tagged (a b r : ℕ) : Multiset (ℕ × ℕ) := (Multiset.Ico a b).map (·, r)

theorem mem_tagged {a b r : ℕ} {x : ℕ × ℕ} : x ∈ tagged a b r ↔ a ≤ x.1 ∧ x.1 < b ∧ x.2 = r := by
  unfold tagged
  rw [Multiset.mem_map]
  constructor
  · rintro ⟨i, hi, rfl⟩
    obtain ⟨h1, h2⟩ := Multiset.mem_Ico.1 hi
    exact ⟨h1, h2, rfl⟩
  · rintro ⟨h1, h2, h3⟩
    exact ⟨x.1, Multiset.mem_Ico.2 ⟨h1, h2⟩, by rw [← h3]⟩

theorem fst_tagged (a b r : ℕ) : (tagged a b r).map Prod.fst = Multiset.Ico a b := by
  unfold tagged
  rw [Multiset.map_map]
  exact Multiset.map_id' _

theorem card_Ico (a b : ℕ) : (Multiset.Ico a b).card = b - a := Nat.card_Ico a b

theorem card_tagged (a b r : ℕ) : (tagged a b r).card = b - a := by
  unfold tagged
  rw [Multiset.card_map, card_Ico]

/-- An interval is cut anywhere in it. -/
theorem tagged_split {a m b : ℕ} (r : ℕ) (h1 : a ≤ m) (h2 : m ≤ b) :
    tagged a b r = tagged a m r + tagged m b r := by
  unfold tagged
  rw [← map_add, Multiset.Ico_add_Ico_eq_Ico h1 h2]

theorem tagged_empty {a b : ℕ} (r : ℕ) (h : b ≤ a) : tagged a b r = 0 := by
  unfold tagged
  rw [Multiset.Ico_eq_zero_of_le h]
  rfl

variable {α : Type*}

theorem getD_modify {l : List α} (i j : ℕ) (f : α → α) (d : α) (h : i < l.length) :
    (l.modify i f).getD j d = if j = i then f (l.getD i d) else l.getD j d := by
  rw [getD_eq_getElem?_getD, getD_eq_getElem?_getD, getD_eq_getElem?_getD, List.getElem?_modify]
  by_cases hji : j = i
  · subst hji
    rw [if_pos rfl, List.getElem?_eq_getElem h]
    simp
  · have hij : ¬ i = j := fun he => hji he.symm
    rw [if_neg hji]
    simp [hij]

theorem modify_of_length_le (l : List α) {i : ℕ} (f : α → α)
    (h : l.length ≤ i) : l.modify i f = l := by
  refine ext_getElem? fun j => ?_
  rw [List.getElem?_modify]
  by_cases hij : i = j
  · subst hij
    rw [List.getElem?_eq_none h]
    rfl
  · simp [hij]

theorem getD_modify_of_eq {β : Type*} (g : α → β) {f : α → α} (hf : ∀ a, g (f a) = g a)
    (l : List α) (i j : ℕ) (d : α) : g ((l.modify i f).getD j d) = g (l.getD j d) := by
  by_cases h : i < l.length
  · rw [getD_modify _ _ _ _ h]
    split
    · next hj => rw [hj, hf]
    · rfl
  · rw [modify_of_length_le _ _ (not_lt.1 h)]

theorem modify_eq_self {l : List α} {i : ℕ} {f : α → α} {d : α}
    (h : f (l.getD i d) = l.getD i d) : l.modify i f = l := by
  refine ext_getElem? fun j => ?_
  rw [List.getElem?_modify]
  by_cases hij : i = j
  · subst hij
    cases hl : l[i]? with
    | none => rfl
    | some a =>
      have ha : l.getD i d = a := by
        rw [getD_eq_getElem?_getD, hl]
        rfl
      rw [ha] at h
      simp [h]
  · simp [hij]

section Sums

variable {M : Type*} [AddCommMonoid M]

/-- Two sums that differ in one term. -/
theorem sum_range_add {n s : ℕ} {f g : ℕ → M} {c : M} (hs : s < n) (h : ∀ i, i ≠ s → f i = g i)
    (hc : f s = c + g s) : ∑ i ∈ Finset.range n, f i = c + ∑ i ∈ Finset.range n, g i := by
  have hmem : s ∈ Finset.range n := Finset.mem_range.2 hs
  have hrest : ∑ i ∈ (Finset.range n).erase s, f i = ∑ i ∈ (Finset.range n).erase s, g i :=
    sum_congr rfl fun i hi => h i (ne_of_mem_erase hi)
  rw [← add_sum_erase _ f hmem, ← add_sum_erase _ g hmem, hrest, hc, add_assoc]

end Sums

theorem mem_sum_range {n : ℕ} {f : ℕ → Multiset α} {x : α} :
    x ∈ ∑ i ∈ Finset.range n, f i ↔ ∃ i < n, x ∈ f i := by simp

end Lib
