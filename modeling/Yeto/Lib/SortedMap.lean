/-
Finite maps kept in ascending key order.

The order of an iteration over a map is part of what the services of this
development do. A `SortedMap` is therefore an association list with strictly
ascending keys, the sortedness carried as a field, so that two maps with the
same lookups are EQUAL (`SortedMap.ext_find`) and iteration is `entries`.
-/
import Mathlib.Algebra.BigOperators.Group.Multiset.Basic

namespace Lib

open List

structure SortedMap (κ α : Type*) [LinearOrder κ] where
  entries : List (κ × α)
  sorted : entries.Pairwise (fun a b => a.1 < b.1)

namespace SortedMap

variable {κ α β : Type*} [LinearOrder κ]

instance [DecidableEq α] : DecidableEq (SortedMap κ α) := fun a b =>
  decidable_of_iff (a.entries = b.entries) (by cases a; cases b; simp)

def empty : SortedMap κ α := ⟨[], List.Pairwise.nil⟩

def insertList (k : κ) (v : α) : List (κ × α) → List (κ × α)
  | [] => [(k, v)]
  | e :: rest =>
    if k < e.1 then (k, v) :: e :: rest
    else if k = e.1 then (k, v) :: rest
    else e :: insertList k v rest

variable {k k' : κ} {v : α}

theorem mem_insertList_iff {l : List (κ × α)} : l.Pairwise (fun a b => a.1 < b.1) →
      ∀ e : κ × α, e ∈ insertList k v l ↔ e = (k, v) ∨ (e ∈ l ∧ e.1 ≠ k) := by
  induction l with
  | nil => simp [insertList]
  | cons a l ih =>
    intro hl e
    obtain ⟨ha, hl'⟩ := pairwise_cons.1 hl
    unfold insertList
    split
    · next hk =>
      have hne : ∀ x ∈ a :: l, x.1 ≠ k := forall_mem_cons.2
        ⟨hk.ne', fun x hx => (hk.trans (ha x hx)).ne'⟩
      rw [mem_cons]
      exact or_congr_right ⟨fun h => ⟨h, hne e h⟩, And.left⟩
    · split
      · next he =>
        rw [mem_cons, mem_cons]
        refine or_congr_right ⟨fun h => ⟨.inr h, he ▸ (ha e h).ne'⟩,
          fun ⟨h, hne⟩ => h.resolve_left ?_⟩
        rintro rfl
        exact hne he.symm
      · next he =>
        have hne : e = a → e.1 ≠ k := by
          rintro rfl
          exact fun h => he h.symm
        rw [mem_cons, ih hl' e, mem_cons, or_left_comm, or_and_right, and_iff_left_of_imp hne]

theorem pairwise_insertList (k : κ) (v : α) {l : List (κ × α)} : l.Pairwise (fun a b => a.1 < b.1) →
      (insertList k v l).Pairwise (fun a b => a.1 < b.1) := by
  induction l with
  | nil => intro _; exact pairwise_singleton _ _
  | cons a l ih =>
    intro hl
    obtain ⟨ha, hl'⟩ := pairwise_cons.1 hl
    unfold insertList
    split
    · next hk => exact pairwise_cons.2 ⟨forall_mem_cons.2 ⟨hk, fun b hb => hk.trans (ha b hb)⟩, hl⟩
    · next hk =>
      split
      · next he =>
        refine pairwise_cons.2 ⟨fun b hb => ?_, hl'⟩
        rw [he]
        exact ha b hb
      · next he =>
        refine pairwise_cons.2 ⟨fun b hb => ?_, ih hl'⟩
        rcases (mem_insertList_iff hl' b).1 hb with rfl | ⟨hb, -⟩
        · exact lt_of_le_of_ne (not_lt.1 hk) (Ne.symm he)
        · exact ha b hb

def insert (m : SortedMap κ α) (k : κ) (v : α) : SortedMap κ α :=
  ⟨insertList k v m.entries, pairwise_insertList k v m.sorted⟩

def erase (m : SortedMap κ α) (k : κ) : SortedMap κ α :=
  ⟨m.entries.filter (fun e => !decide (e.1 = k)), m.sorted.filter _⟩

def find (m : SortedMap κ α) (k : κ) : Option α :=
  (m.entries.find? (fun e => decide (e.1 = k))).map Prod.snd

def contains (m : SortedMap κ α) (k : κ) : Bool := (m.find k).isSome

def keys (m : SortedMap κ α) : List κ := m.entries.map Prod.fst

def values (m : SortedMap κ α) : List α := m.entries.map Prod.snd

def size (m : SortedMap κ α) : Nat := m.entries.length

def update (m : SortedMap κ α) (k : κ) (f : α → α) : SortedMap κ α :=
  match m.find k with
  | some v => m.insert k (f v)
  | none => m

def filter (m : SortedMap κ α) (p : κ → α → Bool) : SortedMap κ α :=
  ⟨m.entries.filter fun e => p e.1 e.2, m.sorted.filter _⟩

/-- The entry with the largest key at or below `k`. -/
def findLe (m : SortedMap κ α) (k : κ) : Option (κ × α) :=
  (m.entries.filter (fun e => decide (e.1 ≤ k))).getLast?

theorem find_empty (k : κ) : (empty : SortedMap κ α).find k = none := rfl

section

variable (m : SortedMap κ α)

theorem mem_entries_iff (k : κ) (v : α) : (k, v) ∈ m.entries ↔ m.find k = some v := by
  obtain ⟨l, hl⟩ := m
  show (k, v) ∈ l ↔ (l.find? (fun e => decide (e.1 = k))).map Prod.snd = some v
  induction l with
  | nil => simp
  | cons a l ih =>
    obtain ⟨ha, hl'⟩ := pairwise_cons.1 hl
    by_cases hk : a.1 = k
    · have hnot : (k, v) ∉ l := fun h => absurd (ha _ h) (by rw [hk]; exact lt_irrefl _)
      rw [List.find?_cons_of_pos (by simpa using hk), mem_cons, or_iff_left hnot]
      subst hk
      simp [Prod.ext_iff, eq_comm]
    · rw [List.find?_cons_of_neg (by simpa using hk), ← ih hl', mem_cons]
      exact or_iff_right fun h => hk (by rw [← h])

theorem find_eq_none_iff (k : κ) : m.find k = none ↔ ∀ v, (k, v) ∉ m.entries := by
  simp only [Option.eq_none_iff_forall_ne_some, ne_eq, mem_entries_iff]

theorem contains_iff (k : κ) :
    m.contains k = true ↔ ∃ v, m.find k = some v := Option.isSome_iff_exists

theorem contains_eq_false_iff (k : κ) : m.contains k = false ↔ m.find k = none := by
  unfold contains
  simp

theorem mem_keys_iff (k : κ) : k ∈ m.keys ↔ ∃ v, m.find k = some v := by
  unfold keys
  simp [mem_entries_iff]

theorem mem_values_iff (v : α) : v ∈ m.values ↔ ∃ k, m.find k = some v := by
  unfold values
  simp [mem_entries_iff]

theorem nodup_keys : m.keys.Nodup := (pairwise_map.2 m.sorted).imp (fun h => ne_of_lt h)

theorem sorted_keys : m.keys.Pairwise (· < ·) := pairwise_map.2 m.sorted

theorem nodup_entries : m.entries.Nodup :=
  m.sorted.imp (fun h he => absurd (congrArg Prod.fst he) (ne_of_lt h))

theorem insertList_last {l : List (κ × α)}
    (h : ∀ e ∈ l, e.1 < k) : insertList k v l = l ++ [(k, v)] := by
  induction l with
  | nil => rfl
  | cons e l ih =>
    obtain ⟨he, hl⟩ := forall_mem_cons.1 h
    unfold insertList
    rw [if_neg (not_lt_of_gt he), if_neg (ne_of_gt he), ih hl]
    rfl

/-- Equal lookups force equality: both entry lists are sorted by a strict
order, so they agree as soon as they have the same members. -/
theorem ext_find {m₁ m₂ : SortedMap κ α} (h : ∀ k, m₁.find k = m₂.find k) : m₁ = m₂ := by
  have hperm : m₁.entries.Perm m₂.entries := by
    refine (perm_ext_iff_of_nodup m₁.nodup_entries m₂.nodup_entries).2 ?_
    rintro ⟨k, v⟩
    rw [mem_entries_iff, mem_entries_iff, h]
  have heq : m₁.entries = m₂.entries :=
    hperm.eq_of_pairwise (fun a b _ _ hab hba => absurd hab (not_lt.2 hba.le)) m₁.sorted m₂.sorted
  cases m₁
  cases m₂
  simpa using heq

theorem mem_entries_insert (k : κ) (v : α) (e : κ × α) :
    e ∈ (m.insert k v).entries ↔ e = (k, v) ∨ (e ∈ m.entries ∧ e.1 ≠ k) :=
  mem_insertList_iff m.sorted e

theorem mem_entries_erase (k : κ) (e : κ × α) :
    e ∈ (m.erase k).entries ↔ e ∈ m.entries ∧ e.1 ≠ k := by
  unfold erase
  simp [mem_filter]

theorem find_insert (k k' : κ) (v : α) :
    (m.insert k v).find k' = if k' = k then some v else m.find k' := by
  split
  · next h =>
    subst h
    rw [← mem_entries_iff, mem_entries_insert]
    exact .inl rfl
  · next h =>
    refine Option.ext fun w => ?_
    rw [← mem_entries_iff, ← mem_entries_iff, mem_entries_insert, and_iff_left h]
    exact or_iff_right fun he => h (congrArg Prod.fst he)

@[simp] theorem find_insert_self (k : κ) (v : α) :
    (m.insert k v).find k = some v := by rw [find_insert, if_pos rfl]

theorem find_insert_ne (v : α) (h : k' ≠ k) :
    (m.insert k v).find k' = m.find k' := by rw [find_insert, if_neg h]

theorem find_erase (k k' : κ) : (m.erase k).find k' = if k' = k then none else m.find k' := by
  split
  · next h =>
    subst h
    rw [find_eq_none_iff]
    intro v hv
    exact ((m.mem_entries_erase _ _).1 hv).2 rfl
  · next h =>
    refine Option.ext fun w => ?_
    rw [← mem_entries_iff, ← mem_entries_iff, mem_entries_erase]
    exact and_iff_left h

@[simp] theorem find_erase_self (k : κ) : (m.erase k).find k = none := by
  rw [find_erase, if_pos rfl]

theorem find_erase_ne (h : k' ≠ k) : (m.erase k).find k' = m.find k' := by rw [find_erase, if_neg h]

end

variable {m : SortedMap κ α}

theorem find_insert_cases {v w : α} (h : (m.insert k v).find k' = some w) :
    (k' = k ∧ w = v) ∨ (k' ≠ k ∧ m.find k' = some w) := by
  rw [find_insert] at h
  split at h
  next hk => exact .inl ⟨hk, (Option.some.inj h).symm⟩
  next hk => exact .inr ⟨hk, h⟩

theorem find_erase_cases {w : α}
    (h : (m.erase k).find k' = some w) : k' ≠ k ∧ m.find k' = some w := by
  rw [find_erase] at h
  split at h
  next hk => cases h
  next hk => exact ⟨hk, h⟩

theorem contains_insert : (m.insert k v).contains k' = true ↔ k' = k ∨ m.contains k' = true := by
  unfold contains
  rw [find_insert]
  split <;> simp [*]

theorem contains_erase : (m.erase k).contains k' = true ↔ k' ≠ k ∧ m.contains k' = true := by
  unfold contains
  rw [find_erase]
  split <;> simp [*]

section

variable (m)

theorem find_update (k k' : κ) (f : α → α) : (m.update k f).find k'
      = if k' = k then (m.find k).map f else m.find k' := by
  unfold update
  cases hk : m.find k with
  | none =>
    show m.find k' = _
    split
    · next h => rw [h, hk]; rfl
    · rfl
  | some v =>
    show (m.insert k (f v)).find k' = _
    rw [find_insert]
    rfl

theorem contains_update (k k' : κ) (f : α → α) : (m.update k f).contains k' = m.contains k' := by
  unfold contains
  rw [find_update]
  split
  · next h => rw [h]; cases m.find k <;> rfl
  · rfl

theorem erase_eq_self (h : m.find k = none) : m.erase k = m := by
  refine ext_find fun k' => ?_
  rw [find_erase]
  split
  · next hk => rw [hk, h]
  · rfl

theorem find_filter (p : κ → α → Bool) (k : κ) : (m.filter p).find k = (m.find k).filter (p k) := by
  refine Option.ext fun v => ?_
  rw [← mem_entries_iff, Option.filter_eq_some_iff, ← mem_entries_iff]
  exact mem_filter

theorem entries_insert_perm (k : κ) (v : α) :
    (m.insert k v).entries.Perm ((k, v) :: (m.erase k).entries) := by
  refine (perm_ext_iff_of_nodup (m.insert k v).nodup_entries ?_).2 ?_
  · refine nodup_cons.2 ⟨fun h => ?_, (m.erase k).nodup_entries⟩
    exact ((m.mem_entries_erase _ _).1 h).2 rfl
  · intro e
    rw [mem_entries_insert, mem_cons, mem_entries_erase]

theorem entries_insert_new (v : α) (h : m.find k = none) :
    (m.insert k v).entries.Perm ((k, v) :: m.entries) := by
  have := m.entries_insert_perm k v
  rwa [m.erase_eq_self h] at this

theorem entries_erase_perm (h : m.find k = some v) :
    m.entries.Perm ((k, v) :: (m.erase k).entries) := by
  have hsame : m.insert k v = m := by
    refine ext_find fun k' => ?_
    rw [find_insert]
    split
    · next hk => rw [hk, h]
    · rfl
  have := m.entries_insert_perm k v
  rwa [hsame] at this

end

theorem size_insert_new (v : α) (h : m.find k = none) : (m.insert k v).size = m.size + 1 :=
  (m.entries_insert_new v h).length_eq

theorem size_erase {v : α} (h : m.find k = some v) : (m.erase k).size + 1 = m.size :=
  (m.entries_erase_perm h).length_eq.symm

theorem size_insert_of_some {v : α} (w : α) (h : m.find k = some v) :
    (m.insert k w).size = m.size := (m.entries_insert_perm k w).length_eq.trans (size_erase h)

section Sum

variable {M : Type*} [AddCommMonoid M]

def sum (m : SortedMap κ α) (f : κ → α → M) : M := (m.entries.map (fun e => f e.1 e.2)).sum

section

variable (m)

section

variable (f : κ → α → M)

theorem sum_eq_of_perm {l : List (κ × α)} (h : m.entries.Perm l) :
    m.sum f = (l.map (fun e => f e.1 e.2)).sum := (h.map _).sum_eq

theorem sum_erase_add (h : m.find k = some v) : m.sum f = f k v + (m.erase k).sum f := by
  rw [m.sum_eq_of_perm f (m.entries_erase_perm h), map_cons, sum_cons]
  rfl

theorem sum_insert (k : κ) (v : α) : (m.insert k v).sum f = f k v + (m.erase k).sum f := by
  rw [(m.insert k v).sum_eq_of_perm f (m.entries_insert_perm k v), map_cons, sum_cons]
  rfl

theorem sum_insert_new (v : α) (h : m.find k = none) : (m.insert k v).sum f = f k v + m.sum f := by
  rw [m.sum_insert, m.erase_eq_self h]

end

theorem mem_sum {β : Type*} {f : κ → α → Multiset β} {x : β} :
    x ∈ m.sum f ↔ ∃ k v, m.find k = some v ∧ x ∈ f k v := by
  simp only [← mem_entries_iff, sum, ← Prod.exists (p := fun e => e ∈ m.entries ∧ x ∈ f e.1 e.2)]
  induction m.entries with
  | nil => simp
  | cons e l ih => rw [map_cons, sum_cons, Multiset.mem_add, ih, exists_mem_cons_iff]

theorem sum_filter (p : κ → α → Bool) (f : κ → α → M)
    (h : ∀ k v, m.find k = some v → p k v = false → f k v = 0) : (m.filter p).sum f = m.sum f := by
  have hlist : ∀ l : List (κ × α), (∀ e ∈ l, p e.1 e.2 = false → f e.1 e.2 = 0) →
      ((l.filter fun e => p e.1 e.2).map fun e => f e.1 e.2).sum
        = (l.map fun e => f e.1 e.2).sum := by
    intro l
    induction l with
    | nil => intro _; rfl
    | cons e l ih =>
      intro hl
      obtain ⟨he, hl'⟩ := forall_mem_cons.1 hl
      rw [map_cons, sum_cons]
      cases hp : p e.1 e.2 with
      | true => rw [filter_cons_of_pos (by simp [hp]), map_cons, sum_cons, ih hl']
      | false => rw [filter_cons_of_neg (by simp [hp]), ih hl', he hp, zero_add]
  exact hlist m.entries fun e he => h e.1 e.2 ((m.mem_entries_iff _ _).1 he)

end

end Sum

theorem findLe_some (h : m.findLe k = some (k', v)) : m.find k' = some v ∧ k' ≤ k
      ∧ ∀ k'' w, m.find k'' = some w → k'' ≤ k → k'' ≤ k' := by
  have hmem := mem_of_getLast? h
  obtain ⟨hin, hle⟩ := mem_filter.1 hmem
  refine ⟨(m.mem_entries_iff _ _).1 hin, by simpa using hle, ?_⟩
  intro k'' w hw hk
  obtain ⟨init, hinit⟩ := List.getLast?_eq_some_iff.1 h
  have hsorted : (m.entries.filter (fun e => decide (e.1 ≤ k))).Pairwise
      (fun a b => a.1 < b.1) := m.sorted.filter _
  have hmem'' : (k'', w) ∈ m.entries.filter (fun e => decide (e.1 ≤ k)) :=
    mem_filter.2 ⟨(m.mem_entries_iff _ _).2 hw, by simpa using hk⟩
  rw [hinit] at hmem'' hsorted
  rcases mem_append.1 hmem'' with hm | hm
  · exact le_of_lt ((pairwise_append.1 hsorted).2.2 _ hm _ (mem_singleton.2 rfl))
  · rw [mem_singleton] at hm
    exact le_of_eq (congrArg Prod.fst hm)

end SortedMap

end Lib
