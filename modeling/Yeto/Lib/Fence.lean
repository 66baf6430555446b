/-
A bounded record of items that must not come back.

A fence remembers the items put on it, oldest first, and forgets from the
front once it holds more than its limit. `add_new` is the whole behaviour: the
record is the LAST `limit` items of everything that was ever put on it.
-/
import Yeto.Lib.SortedMap
import Mathlib.Data.List.DropRight

namespace Lib

open List

variable {α : Type*} {l : List α} {n : Nat}

theorem rtake_of_length_le (h : l.length ≤ n) : l.rtake n = l := by
  unfold List.rtake
  rw [Nat.sub_eq_zero_of_le h]
  rfl

theorem rtake_cons_of_lt {x : α} (h : n < (x :: l).length) : (x :: l).rtake n = l.rtake n := by
  unfold List.rtake
  rw [length_cons] at h ⊢
  rw [show l.length + 1 - n = l.length - n + 1 by omega, drop_succ_cons]

theorem rtake_rtake_append (l k : List α) (n : Nat) :
    (l.rtake n ++ k).rtake n = (l ++ k).rtake n := by
  by_cases hn : l.length ≤ n
  · rw [rtake_of_length_le hn]
  · unfold List.rtake
    rw [drop_append, drop_append, drop_drop]
    simp only [length_append, length_drop]
    congr 2 <;> omega

theorem length_rtake_le (l : List α) (n : Nat) : (l.rtake n).length ≤ n := by
  unfold List.rtake
  rw [length_drop]
  omega

theorem mem_rtake_append_cons {pre : List α} (post : List α) (x : α) (h : post.length < n) :
    x ∈ (pre ++ x :: post).rtake n := by
  unfold List.rtake
  rw [drop_append]
  refine mem_append_right _ ?_
  have hzero : (pre ++ x :: post).length - n - pre.length = 0 := by
    simp only [length_append, length_cons]
    omega
  rw [hzero]
  exact mem_cons_self

theorem rtake_of_sublist {l₁ l₂ : List α} (hsub : l₁.Sublist l₂) (hnd : l₂.Nodup)
    (hall : ∀ x ∈ l₂.rtake n, x ∈ l₁) : l₁.rtake n = l₂.rtake n := by
  obtain ⟨a, ha⟩ : ∃ a, l₂ = a ++ l₂.rtake n := ⟨_, (take_append_drop (l₂.length - n) l₂).symm⟩
  obtain ⟨u, v, rfl, hu, hv⟩ := sublist_append_iff.1 (ha ▸ hsub)
  have hdisj := disjoint_of_nodup_append (ha ▸ hnd)
  -- The last ones can only be in the second part.
  have hend : l₂.rtake n ⊆ v := by
    intro x hx
    rcases mem_append.1 (hall x hx) with h | h
    · exact absurd hx (hdisj (hu.subset h))
    · exact h
  have hv' : v = l₂.rtake n := by
    refine hv.eq_of_length_le ?_
    have hnod : (l₂.rtake n).Nodup := hnd.sublist (drop_sublist _ _)
    exact (hnod.subperm hend).length_le
  by_cases hlen : l₂.length ≤ n
  · have hle := hsub.length_le
    rw [rtake_of_length_le (le_trans hle hlen), hv']
    rw [rtake_of_length_le hlen] at hv' ⊢
    rw [hv'] at hle
    rw [length_append] at hle
    obtain rfl : u = [] := length_eq_zero_iff.1 (by omega)
    rfl
  · have hvlen : v.length = n := by
      rw [hv']
      unfold List.rtake
      rw [length_drop]
      omega
    rw [← hv']
    unfold List.rtake
    rw [length_append, hvlen, Nat.add_sub_cancel, drop_left]

/-- A list without repetition, and a map with an entry for each item. -/
def Recorded [LinearOrder α] {β : Type*} (order : List α) (set : SortedMap α β) : Prop :=
  order.Nodup ∧ ∀ x, set.contains x = true ↔ x ∈ order

section Recorded

variable [LinearOrder α] {β : Type*} {order : List α} {set : SortedMap α β} {x : α}

theorem Recorded.push (h : Recorded order set) (hx : set.contains x = false) (v : β) :
    Recorded (order ++ [x]) (set.insert x v) := by
  refine ⟨nodup_append.2 ⟨h.1, nodup_singleton x, ?_⟩, fun y => ?_⟩
  · rintro a ha b hb rfl
    rw [mem_singleton.1 hb, ← h.2, hx] at ha
    cases ha
  · rw [mem_append, mem_singleton, ← h.2 y, or_comm, SortedMap.contains_insert]

theorem Recorded.pop (h : Recorded (x :: order) set) : Recorded order (set.erase x) := by
  obtain ⟨hx, hnd⟩ := nodup_cons.1 h.1
  refine ⟨hnd, fun y => ?_⟩
  rw [SortedMap.contains_erase, h.2 y, mem_cons]
  exact ⟨fun hy => hy.2.resolve_left hy.1, fun hy => ⟨fun he => hx (he ▸ hy), .inr hy⟩⟩

/-- The eviction loop: drop from the front while the record is over its
limit. -/
def evict (limit : Nat) : List α → SortedMap α β → List α × SortedMap α β
  | [], set => ([], set)
  | old :: order, set =>
    if (old :: order).length > limit then evict limit order (set.erase old)
    else (old :: order, set)

/-- What is left is the end of the record, and its map. -/
theorem evict_spec (limit : Nat) : ∀ {set : SortedMap α β}, Recorded order set →
    (evict limit order set).1 = order.rtake limit
      ∧ Recorded (order.rtake limit) (evict limit order set).2 := by
  induction order with
  | nil => exact fun h => ⟨(rtake_nil ..).symm, by rwa [rtake_nil]⟩
  | cons old order ih =>
    intro set h
    unfold evict
    split
    · next hgt =>
      rw [rtake_cons_of_lt hgt]
      exact ih h.pop
    · next hle =>
      rw [rtake_of_length_le (Nat.le_of_not_lt hle)]
      exact ⟨rfl, h⟩

end Recorded

/-- The items on record, oldest first, and the set of them. -/
structure Fence (α : Type*) [LinearOrder α] where
  order : List α
  set : SortedMap α Unit

namespace Fence

variable [LinearOrder α]

instance : DecidableEq (Fence α) := fun a b =>
  decidable_of_iff (a.order = b.order ∧ a.set = b.set) (by cases a; cases b; simp)

def empty : Fence α := ⟨[], .empty⟩

def contains (f : Fence α) (x : α) : Bool := f.set.contains x

/-- Put an item on the record, unless it is there. -/
def add (limit : Nat) (f : Fence α) (x : α) : Fence α :=
  if f.contains x then f
  else
    let kept := evict limit (f.order ++ [x]) (f.set.insert x ())
    ⟨kept.1, kept.2⟩

/-- Record and set hold the same items, without repetition and within
the limit. -/
structure Ok (limit : Nat) (f : Fence α) : Prop where
  nodup : f.order.Nodup
  same : ∀ x, f.contains x = true ↔ x ∈ f.order
  bound : f.order.length ≤ limit

theorem ok_empty (limit : Nat) : (empty : Fence α).Ok limit := by
  refine ⟨nodup_nil, fun x => ?_, Nat.zero_le _⟩
  show false = true ↔ x ∈ []
  simp

variable {limit : Nat} {f : Fence α}

theorem add_of_contains {x : α} (h : f.contains x = true) : f.add limit x = f := by
  unfold add
  rw [if_pos h]

theorem add_new (h : f.Ok limit) {x : α} (hx : f.contains x = false) :
    (f.add limit x).order = (f.order ++ [x]).rtake limit
      ∧ Recorded ((f.order ++ [x]).rtake limit) (f.add limit x).set := by
  unfold add
  rw [hx, if_neg (by decide)]
  exact evict_spec limit (Recorded.push ⟨h.nodup, h.same⟩ hx ())

theorem ok_add (h : f.Ok limit) {x : α} : (f.add limit x).Ok limit := by
  cases hx : f.contains x with
  | true =>
    rw [add_of_contains hx]
    exact h
  | false =>
    obtain ⟨horder, hrec⟩ := add_new h hx
    rw [← horder] at hrec
    refine ⟨hrec.1, hrec.2, ?_⟩
    rw [horder]
    exact length_rtake_le _ _

theorem contains_add_self (hlimit : 0 < limit)
    (h : f.Ok limit) (x : α) : (f.add limit x).contains x = true := by
  cases hx : f.contains x with
  | true =>
    rw [add_of_contains hx]
    exact hx
  | false => exact ((add_new h hx).2.2 x).2 (mem_rtake_append_cons [] x hlimit)

theorem Ok.ext {f g : Fence α} (hf : f.Ok limit) (hg : g.Ok limit)
    (h : f.order = g.order) : f = g := by
  have hset : f.set = g.set := by
    refine SortedMap.ext_find fun x => ?_
    have hiff : f.set.contains x = true ↔ g.set.contains x = true := by
      refine (hf.same x).trans ?_
      rw [h]
      exact (hg.same x).symm
    unfold SortedMap.contains at hiff
    cases h1 : f.set.find x <;> cases h2 : g.set.find x <;> simp [h1, h2] at hiff ⊢
  cases f
  cases g
  exact congr (congrArg Fence.mk h) hset

def addAll (limit : Nat) (f : Fence α) (xs : List α) : Fence α :=
  xs.foldl (fun f x => f.add limit x) f

theorem ok_addAll (h : f.Ok limit) (xs : List α) : (f.addAll limit xs).Ok limit := by
  induction xs generalizing f with
  | nil => exact h
  | cons x xs ih => exact ih (ok_add h)

theorem order_addAll_empty {xs : List α} (hnd : xs.Nodup) (hlen : xs.length ≤ limit) :
    ((empty : Fence α).addAll limit xs).order = xs := by
  have key : ∀ (ys : List α) (f : Fence α), f.Ok limit → (f.order ++ ys).Nodup →
      (f.order ++ ys).length ≤ limit → (f.addAll limit ys).order = f.order ++ ys := by
    intro ys
    induction ys with
    | nil => intro f _ _ _; exact (append_nil _).symm
    | cons y ys ih =>
      intro f hf hnd hlen
      have hy : f.contains y = false := by
        rw [Bool.eq_false_iff]
        intro hc
        have hdisj := (nodup_append.1 hnd).2.2 y ((hf.same y).1 hc) y mem_cons_self
        exact hdisj rfl
      have horder : (f.add limit y).order = f.order ++ [y] := by
        rw [(add_new hf hy).1]
        refine rtake_of_length_le ?_
        simp only [length_append, length_cons, length_nil] at hlen ⊢
        omega
      have hsplit : f.order ++ y :: ys = (f.add limit y).order ++ ys := by
        rw [horder, append_assoc]
        rfl
      rw [hsplit] at hnd hlen ⊢
      exact ih _ (ok_add hf) hnd hlen
  exact key xs empty (ok_empty limit) hnd hlen

end Fence

end Lib
