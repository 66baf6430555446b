/-
A ledger of items that are given out, settled at most once, and put back a
bounded number of times.

Every item given out so far is pending, held, or done, and each pending or
held item carries how often it was put back. Five moves change a ledger:
pending items are taken, fresh ones are given out, held ones are settled, put
back (counted, up to the limit) or given back (not counted). `Ledger.Ok`, an
equation of multisets, is kept by every move.
-/
import Mathlib.Algebra.Order.Group.Multiset
import Mathlib.Tactic.Abel

namespace Lib

open Multiset

/-- Items of type `π`; a pending or held item carries its put-back count. -/
structure Ledger (π : Type*) where
  pending : Multiset (π × ℕ)
  held : Multiset (π × ℕ)
  done : Multiset π
  /-- The history of counted put-backs. -/
  putBack : Multiset π
  given : Multiset π

namespace Ledger

variable {π : Type*} {limit : ℕ} {l l' : Ledger π}

def items (c : Multiset (π × ℕ)) : Multiset π := c.map Prod.fst

@[simp] theorem items_add (a b : Multiset (π × ℕ)) :
    items (a + b) = items a + items b := map_add _ _ _

theorem mem_items {c : Multiset (π × ℕ)} {i : π} : i ∈ items c ↔ ∃ r, (i, r) ∈ c := by
  unfold items
  simp

def bump (c : Multiset (π × ℕ)) : Multiset (π × ℕ) := c.map fun x => (x.1, x.2 + 1)

@[simp] theorem items_bump (c : Multiset (π × ℕ)) : items (bump c) = items c := by
  unfold items bump
  rw [map_map]
  rfl

inductive Step (limit : ℕ) : Ledger π → Ledger π → Prop
  | take {p c h : Multiset (π × ℕ)} {d b g : Multiset π} :
      Step limit ⟨c + p, h, d, b, g⟩ ⟨p, c + h, d, b, g⟩
  | fresh {p h : Multiset (π × ℕ)} {d b g f : Multiset π} : (f + g).Nodup →
      Step limit ⟨p, h, d, b, g⟩ ⟨p, f.map (·, 0) + h, d, b, f + g⟩
  | settle {p c h : Multiset (π × ℕ)} {d b g : Multiset π} :
      Step limit ⟨p, c + h, d, b, g⟩ ⟨p, h, items c + d, b, g⟩
  | putBack {p c h : Multiset (π × ℕ)} {d b g : Multiset π} : (∀ x ∈ c, x.2 < limit) →
      Step limit ⟨p, c + h, d, b, g⟩ ⟨bump c + p, h, d, items c + b, g⟩
  | giveBack {p c h : Multiset (π × ℕ)} {d b g : Multiset π} :
      Step limit ⟨p, c + h, d, b, g⟩ ⟨c + p, h, d, b, g⟩

def empty : Ledger π := ⟨0, 0, 0, 0, 0⟩

variable [DecidableEq π]

structure Ok (limit : ℕ) (l : Ledger π) : Prop where
  /-- Pending, held and done items are the given ones. -/
  balance : items l.pending + items l.held + l.done = l.given
  nodup : l.given.Nodup
  /-- The count an item carries is how often it was put back. -/
  counts : ∀ x ∈ l.pending + l.held, l.putBack.count x.1 = x.2
  bounded : ∀ i, l.putBack.count i ≤ limit
  /-- Only given items were put back. -/
  known : ∀ i ∈ l.putBack, i ∈ l.given

theorem ok_empty : (empty : Ledger π).Ok limit := by
  exact ⟨rfl, nodup_zero, fun x hx => absurd hx (notMem_zero x), fun _ => Nat.zero_le _,
    fun i hi => absurd hi (notMem_zero i)⟩

theorem Ok.nodup_active (h : l.Ok limit) : (items l.pending + items l.held).Nodup := by
  have hn := h.nodup
  rw [← h.balance] at hn
  exact (nodup_add.1 hn).1

theorem Ok.active (h : l.Ok limit) {i : π}
    (hi : i ∈ items l.pending + items l.held) : i ∈ l.given ∧ i ∉ l.done := by
  have hn := h.nodup
  rw [← h.balance] at hn
  refine ⟨?_, ?_⟩
  · rw [← h.balance]
    exact mem_add.2 (.inl hi)
  · exact disjoint_left.1 (nodup_add.1 hn).2.2 hi

/-- A ledger with the same items done, given and put back, and the same
active items, is as good. -/
theorem Ok.of_active_eq (h : l.Ok limit) (ha : l'.pending + l'.held = l.pending + l.held)
    (hd : l'.done = l.done) (hb : l'.putBack = l.putBack)
    (hg : l'.given = l.given) : l'.Ok limit := by
  have hitems : items l'.pending + items l'.held = items l.pending + items l.held := by
    rw [← items_add, ← items_add, ha]
  refine ⟨?_, hg ▸ h.nodup, ?_, hb ▸ h.bounded, ?_⟩
  · rw [hitems, hd, hg]
    exact h.balance
  · rw [ha, hb]
    exact h.counts
  · rw [hb, hg]
    exact h.known

theorem Ok.step_putBack {p c h : Multiset (π × ℕ)} {d b g : Multiset π}
    (hl : Ok limit ⟨p, c + h, d, b, g⟩) (hc : ∀ x ∈ c, x.2 < limit) :
    Ok limit ⟨bump c + p, h, d, items c + b, g⟩ := by
  have hnd : (items c + (items p + items h)).Nodup := by
    have := hl.nodup_active
    rw [items_add] at this
    rwa [← add_assoc, add_comm (items c), add_assoc]
  obtain ⟨hnc, -, hdisj⟩ := nodup_add.1 hnd
  have hone : ∀ {i r}, (i, r) ∈ c → (items c + b).count i = r + 1 ∧ b.count i = r := by
    intro i r hi
    have h1 : (items c).count i = 1 := count_eq_one_of_mem hnc (mem_items.2 ⟨r, hi⟩)
    have h2 : b.count i = r := hl.counts (i, r) (by
      simp only [mem_add]
      exact .inr (.inl hi))
    rw [count_add]
    omega
  have hother : ∀ {i}, i ∉ items c → (items c + b).count i = b.count i := by
    intro i hi
    rw [count_add, count_eq_zero_of_notMem hi, Nat.zero_add]
  refine ⟨?_, hl.nodup, ?_, ?_, ?_⟩
  · have := hl.balance
    simp only [items_add, items_bump] at this ⊢
    rw [← this]
    abel
  · rintro ⟨i, r⟩ hx
    simp only [mem_add] at hx
    rcases hx with (hx | hx) | hx
    · obtain ⟨⟨j, q⟩, hmem, he⟩ := mem_map.1 hx
      cases he
      exact (hone hmem).1
    · have hi : i ∉ items c := fun hmem =>
        disjoint_left.1 hdisj hmem (mem_add.2 (.inl (mem_items.2 ⟨r, hx⟩)))
      rw [hother hi]
      exact hl.counts (i, r) (mem_add.2 (.inl hx))
    · have hi : i ∉ items c := fun hmem =>
        disjoint_left.1 hdisj hmem (mem_add.2 (.inr (mem_items.2 ⟨r, hx⟩)))
      rw [hother hi]
      exact hl.counts (i, r) (mem_add.2 (.inr (mem_add.2 (.inr hx))))
  · intro i
    by_cases hi : i ∈ items c
    · obtain ⟨r, hr⟩ := mem_items.1 hi
      have hlt : r < limit := hc (i, r) hr
      have := (hone hr).1
      show (items c + b).count i ≤ limit
      omega
    · show (items c + b).count i ≤ limit
      rw [hother hi]
      exact hl.bounded i
  · intro i hi
    rcases mem_add.1 hi with hi | hi
    · exact (hl.active (by
        rw [items_add]
        simp only [mem_add]
        exact .inr (.inl hi))).1
    · exact hl.known i hi

theorem Ok.step_fresh {p h : Multiset (π × ℕ)} {d b g f : Multiset π}
    (hl : Ok limit ⟨p, h, d, b, g⟩) (hf : (f + g).Nodup) :
    Ok limit ⟨p, f.map (·, 0) + h, d, b, f + g⟩ := by
  have hitems : items (f.map (·, 0)) = f := by
    unfold items
    rw [map_map]
    exact map_id' f
  obtain ⟨-, -, hdisj⟩ := nodup_add.1 hf
  refine ⟨?_, hf, ?_, hl.bounded, ?_⟩
  · have := hl.balance
    simp only [items_add, hitems] at this ⊢
    rw [← this]
    abel
  · rintro ⟨i, r⟩ hx
    simp only [mem_add] at hx
    rcases hx with hx | hx | hx
    · exact hl.counts (i, r) (mem_add.2 (.inl hx))
    · obtain ⟨j, hj, he⟩ := mem_map.1 hx
      cases he
      refine count_eq_zero_of_notMem fun hb => ?_
      exact disjoint_left.1 hdisj hj (hl.known i hb)
    · exact hl.counts (i, r) (mem_add.2 (.inr hx))
  · intro i hi
    exact mem_add.2 (.inr (hl.known i hi))

theorem Ok.step (hl : l.Ok limit) (hs : Step limit l l') : l'.Ok limit := by
  cases hs with
  | fresh hf => exact hl.step_fresh hf
  | @settle p c h d b g =>
    refine { hl with balance := ?_, counts := ?_ }
    · have := hl.balance
      simp only [items_add] at this ⊢
      rw [← this]
      abel
    · intro x hx
      refine hl.counts x ?_
      simp only [mem_add] at hx ⊢
      tauto
  | putBack hc => exact hl.step_putBack hc
  | take | giveBack => exact hl.of_active_eq (by simp only; abel) rfl rfl rfl

end Ledger

end Lib
