/-
What `pick_fresh` picks: only accepted streams below their limits, and as many
positions as are asked for or left. `ScanOk` is the invariant of the scan;
`loopCounts` follows the counts of the loop alone, and `pickLoop_getD` reads
the takings off them.
-/
import Yeto.Dispense.Proofs.Cells

namespace Yeto.Dispense

open Lib Dispenser List Interleave

variable {given n : Int} {accept counts opened : List Nat} {s : Nat} {l : List Nat}

def Interleave.Open (iv : Interleave) (counts : List Nat) (s : Nat) : Prop :=
  counts.getD s 0 < iv.limits.getD s 0

def Interleave.Eligible (iv : Interleave) (counts : List Nat) (n : Int) (s : Nat) : Prop :=
  iv.m * (iv.weights.getD s 0 * n - (counts.getD s 0 : Int) * iv.total) ≥ iv.total

/-- The deadline numerator of a stream's next position. -/
def Interleave.deadline (iv : Interleave) (counts : List Nat) (s : Nat) : Int :=
  iv.m * ((counts.getD s 0 : Int) + 1) - 1

structure ScanOk (iv : Interleave) (counts : List Nat) (n : Int)
    (seen : List Nat) (acc : Scan) : Prop where
  due_mem : ∀ b a, acc.due = some (b, a) → b ∈ seen ∧ iv.Open counts b
    ∧ iv.Eligible counts n b ∧ a = iv.deadline counts b
  due_none : acc.due = none → ∀ s ∈ seen, iv.Open counts s → ¬ iv.Eligible counts n s
  behind_mem : ∀ b f, acc.behind = some (b, f) → b ∈ seen ∧ iv.Open counts b
  behind_none : acc.behind = none → ∀ s ∈ seen, ¬ iv.Open counts s

theorem scanOk_nil {iv : Interleave} :
    ScanOk iv counts n [] ⟨none, none⟩ := by exact ⟨nofun, fun _ => nofun, nofun, fun _ => nofun⟩

variable {iv : Interleave}

theorem scanOk_step {seen : List Nat} {acc : Scan} (h : ScanOk iv counts n seen acc) :
    ScanOk iv counts n (seen ++ [s]) (iv.scanStream counts n acc s) := by
  have hold : ∀ {b}, b ∈ seen → b ∈ seen ++ [s] := fun hb => mem_append_left _ hb
  have hnew : s ∈ seen ++ [s] := mem_append_cons_self
  unfold scanStream
  split
  · next hfull =>
    have hs : ¬ iv.Open counts s := not_lt.2 hfull
    refine ⟨?_, ?_, ?_, ?_⟩
    · exact fun b a hb => (h.due_mem b a hb).imp_left hold
    · intro hn
      exact forall_mem_append.2 ⟨h.due_none hn, forall_mem_singleton.2 fun hopen => absurd hopen hs⟩
    · exact fun b f hb => (h.behind_mem b f hb).imp_left hold
    · intro hn
      exact forall_mem_append.2 ⟨h.behind_none hn, forall_mem_singleton.2 hs⟩
  · next hfull =>
    have hs : iv.Open counts s := not_le.1 hfull
    refine ⟨?_, ?_, ?_, ?_⟩
    · intro b a hb
      dsimp only at hb
      split at hb
      · next hc =>
        cases hb
        exact ⟨hnew, hs, hc.1, rfl⟩
      · exact (h.due_mem b a hb).imp_left hold
    · intro hn
      dsimp only at hn
      split at hn
      · cases hn
      next hc =>
      rw [hn] at hc
      exact forall_mem_append.2 ⟨h.due_none hn, forall_mem_singleton.2 fun _ hel => hc ⟨hel, rfl⟩⟩
    · intro b f hb
      dsimp only at hb
      split at hb
      · cases hb
        exact ⟨hnew, hs⟩
      · exact (h.behind_mem b f hb).imp_left hold
    · intro hn
      dsimp only at hn
      split at hn
      · cases hn
      · next hc =>
        rw [hn] at hc
        exact absurd rfl hc

/-- The whole scan, by induction over the streams not scanned yet. -/
theorem scanOk_foldl {rest : List Nat} :
    ∀ (seen : List Nat) (acc : Scan), ScanOk iv counts n seen acc →
      ScanOk iv counts n (seen ++ rest) (rest.foldl (iv.scanStream counts n) acc) := by
  induction rest with
  | nil => intro seen acc h; rwa [append_nil]
  | cons s rest ih =>
    intro seen acc h
    have := ih (seen ++ [s]) _ (scanOk_step h)
    rwa [append_assoc, singleton_append] at this

theorem scanOk_scan (iv : Interleave) (opened counts : List Nat) (given : Int) :
    ScanOk iv counts (given + 1) opened (iv.scan opened counts given) :=
  scanOk_foldl [] _ scanOk_nil

theorem choice_some (h : (iv.scan opened counts given).choice = some s) :
    s ∈ opened ∧ iv.Open counts s := by
  have hok := scanOk_scan iv opened counts given
  unfold Scan.choice at h
  obtain ⟨⟨b, a⟩, hor, rfl⟩ := Option.map_eq_some_iff.1 h
  rcases Option.or_eq_some_iff.1 hor with hd | ⟨-, hb⟩
  · obtain ⟨h1, h2, -⟩ := hok.due_mem b a hd
    exact ⟨h1, h2⟩
  · exact hok.behind_mem b a hb

theorem choice_none (h : (iv.scan opened counts given).choice = none) :
    ∀ s ∈ opened, ¬ iv.Open counts s := by
  have hok := scanOk_scan iv opened counts given
  unfold Scan.choice at h
  rw [Option.map_eq_none_iff, Option.or_eq_none_iff] at h
  exact hok.behind_none h.2

def Interleave.loopCounts (iv : Interleave) (opened : List Nat) : Nat → List Nat → Int → List Nat
  | 0, counts, _ => counts
  | need + 1, counts, given =>
    match (iv.scan opened counts given).choice with
    | none => counts
    | some s => iv.loopCounts opened need (counts.modify s (· + 1)) (given + 1)

theorem getD_modify_succ (l : List Nat) (i j : Nat) : (l.modify i (· + 1)).getD j 0
      = l.getD j 0 + if j = i ∧ i < l.length then 1 else 0 := by
  by_cases hi : i < l.length
  · rw [getD_modify _ _ _ _ hi]
    by_cases hj : j = i
    · subst hj
      rw [if_pos rfl, if_pos ⟨rfl, hi⟩]
    · rw [if_neg hj, if_neg (fun h => hj h.1), Nat.add_zero]
  · rw [modify_of_length_le _ _ (not_lt.1 hi), if_neg (fun h => hi h.2), Nat.add_zero]

theorem pickLoop_getD (iv : Interleave) (opened : List Nat) (need : Nat) :
    ∀ (counts : List Nat) (given : Int) (taken : List Nat), taken.length = counts.length →
      (iv.pickLoop opened need counts given taken).length = counts.length
        ∧ ∀ s, (iv.pickLoop opened need counts given taken).getD s 0 + counts.getD s 0
          = taken.getD s 0 + (iv.loopCounts opened need counts given).getD s 0 := by
  induction need with
  | zero => intro counts given taken hlen; exact ⟨hlen, fun s => rfl⟩
  | succ need ih =>
    intro counts given taken hlen
    unfold pickLoop loopCounts
    cases hc : (iv.scan opened counts given).choice with
    | none => exact ⟨hlen, fun s => rfl⟩
    | some t =>
      obtain ⟨il, ig⟩ := ih (counts.modify t (· + 1)) (given + 1)
        (taken.modify t (· + 1)) (by simp [hlen])
      refine ⟨il.trans (length_modify _ _ _), fun s => ?_⟩
      have := ig s
      rw [getD_modify_succ, getD_modify_succ, hlen] at this
      dsimp only
      omega

theorem sum_sub_succ {A : Finset Nat} {t : Nat} (ht : t ∈ A) {g : Nat → Nat}
    {c c' : List Nat} (hlt : c.getD t 0 < g t)
    (hc : ∀ s, c'.getD s 0 = c.getD s 0 + if s = t then 1 else 0) :
    ∑ s ∈ A, (g s - c.getD s 0) = ∑ s ∈ A, (g s - c'.getD s 0) + 1 := by
  have hrest : ∑ s ∈ A.erase t, (g s - c.getD s 0) = ∑ s ∈ A.erase t, (g s - c'.getD s 0) := by
    refine Finset.sum_congr rfl fun s hs => ?_
    rw [hc s, if_neg (Finset.ne_of_mem_erase hs), Nat.add_zero]
  rw [← Finset.add_sum_erase _ _ ht, ← Finset.add_sum_erase _ _ ht, hrest, hc t, if_pos rfl]
  omega

def Interleave.room (iv : Interleave) (A : Finset Nat) (counts : List Nat) :
    Nat := ∑ s ∈ A, (iv.limits.getD s 0 - counts.getD s 0)

/-- Counts in the open streams grow up to their limits and nowhere else,
by as much as is asked for or as there is room. -/
theorem loopCounts_spec (iv : Interleave) (opened : List Nat) (need : Nat) :
    ∀ (counts : List Nat) (given : Int), (∀ s ∈ opened, s < counts.length) →
      (∀ s, s ∉ opened → (iv.loopCounts opened need counts given).getD s 0 = counts.getD s 0)
      ∧ (∀ s, counts.getD s 0 ≤ (iv.loopCounts opened need counts given).getD s 0)
      ∧ (∀ s, (iv.loopCounts opened need counts given).getD s 0
          ≤ max (counts.getD s 0) (iv.limits.getD s 0)) ∧ ∑ s ∈ opened.toFinset,
          ((iv.loopCounts opened need counts given).getD s 0 - counts.getD s 0)
        = min need (iv.room opened.toFinset counts) := by
  induction need with
  | zero =>
    intro counts given _
    refine ⟨fun s _ => rfl, fun s => le_rfl, fun s => Nat.le_max_left _ _, ?_⟩
    simp [loopCounts]
  | succ need ih =>
    intro counts given hlen
    unfold loopCounts
    cases hc : (iv.scan opened counts given).choice with
    | none =>
      have hfull := choice_none hc
      refine ⟨fun s _ => rfl, fun s => le_rfl, fun s => Nat.le_max_left _ _, ?_⟩
      have hroom : iv.room opened.toFinset counts = 0 := by
        unfold room
        refine Finset.sum_eq_zero fun s hs => ?_
        have := hfull s (mem_toFinset.1 hs)
        unfold Interleave.Open at this
        omega
      rw [hroom]
      simp
    | some t =>
      obtain ⟨ht, hopen⟩ := choice_some hc
      have htl := hlen t ht
      have hget : ∀ s, (counts.modify t (· + 1)).getD s 0
          = counts.getD s 0 + if s = t then 1 else 0 := by
        intro s
        rw [getD_modify_succ]
        simp [htl]
      obtain ⟨i1, i2, i3, i4⟩ := ih (counts.modify t (· + 1)) (given + 1)
        (fun s hs => by rw [length_modify]; exact hlen s hs)
      dsimp only
      refine ⟨?_, ?_, ?_, ?_⟩
      · intro s hs
        have hne : s ≠ t := fun he => hs (he ▸ ht)
        rw [i1 s hs, hget, if_neg hne, Nat.add_zero]
      · intro s
        have := i2 s
        rw [hget] at this
        omega
      · intro s
        have := i3 s
        rw [hget] at this
        unfold Interleave.Open at hopen
        by_cases hst : s = t
        · subst hst
          rw [if_pos rfl] at this
          omega
        · rw [if_neg hst] at this
          omega
      · have htA : t ∈ opened.toFinset := mem_toFinset.2 ht
        have hgrow := i2 t
        rw [hget, if_pos rfl] at hgrow
        rw [sum_sub_succ htA (by omega) hget, i4]
        unfold room
        rw [sum_sub_succ htA hopen hget]
        omega

structure Picked (d : Dispenser) (accept : List Nat) (need : Nat)
    (picks : List (Nat × Nat)) : Prop where
  distinct : (picks.map Prod.fst).Nodup
  each : ∀ e ∈ picks, e.1 ∈ accept ∧ 0 < e.2 ∧ (d.stream e.1).next + e.2 ≤ d.limit e.1
  total : (picks.map Prod.snd).sum
    = min need (∑ s ∈ accept.toFinset, (d.limit s - (d.stream s).next))

theorem sum_range_getD {α M : Type*} [AddCommMonoid M] (g : α → M) (d : α) (l : List α) :
    ∑ s ∈ Finset.range l.length, g (l.getD s d) = (l.map g).sum := by
  induction l with
  | nil => rfl
  | cons a l ih =>
    rw [length_cons, Finset.sum_range_succ', map_cons, sum_cons, ← ih, add_comm]
    rfl

def nonzeros (l : List Nat) (n : Nat) : List (Nat × Nat) :=
  ((l.zipIdx n).filter fun e => decide (e.1 > 0)).map fun e => (e.2, e.1)

theorem mem_nonzeros {n : Nat} {e : Nat × Nat} :
    e ∈ nonzeros l n ↔ 0 < e.2 ∧ n ≤ e.1 ∧ l[e.1 - n]? = some e.2 := by
  unfold nonzeros
  rw [mem_map]
  constructor
  · rintro ⟨⟨v, i⟩, hmem, rfl⟩
    obtain ⟨hz, hpos⟩ := mem_filter.1 hmem
    obtain ⟨hle, hget⟩ := mk_mem_zipIdx_iff_le_and_getElem?_sub.1 hz
    exact ⟨by simpa using hpos, hle, hget⟩
  · rintro ⟨hpos, hle, hget⟩
    refine ⟨(e.2, e.1), mem_filter.2 ⟨?_, by simpa using hpos⟩, rfl⟩
    exact mk_mem_zipIdx_iff_le_and_getElem?_sub.2 ⟨hle, hget⟩

theorem nodup_nonzeros (l : List Nat) (n : Nat) : ((nonzeros l n).map Prod.fst).Nodup := by
  have hsub : ((nonzeros l n).map Prod.fst).Sublist ((l.zipIdx n).map Prod.snd) := by
    unfold nonzeros
    rw [map_map]
    exact filter_sublist.map _
  refine List.Nodup.sublist hsub ?_
  rw [zipIdx_map_snd]
  exact nodup_range'

theorem sum_nonzeros : ∀ n, ((nonzeros l n).map Prod.snd).sum = l.sum := by
  induction l with
  | nil => intro n; rfl
  | cons a l ih =>
    intro n
    have := ih (n + 1)
    unfold nonzeros at this ⊢
    rw [zipIdx_cons]
    by_cases ha : a > 0
    · rw [filter_cons_of_pos (by simpa using ha), map_cons, map_cons, sum_cons, sum_cons, this]
    · rw [filter_cons_of_neg (by simpa using ha), this, sum_cons]
      omega

theorem getD_nexts (d : Dispenser) (s : Nat) :
    (d.streams.map (·.next)).getD s 0 = (d.stream s).next := by
  unfold stream
  rw [getD_eq_getElem?_getD, getD_eq_getElem?_getD, getElem?_map]
  cases d.streams[s]? <;> rfl

variable {d : Dispenser}

theorem getD_limits (h : s < d.streams.length) : d.interleave.limits.getD s 0 = d.limit s := by
  unfold Dispenser.interleave
  rw [getD_eq_getElem?_getD, getElem?_map, getElem?_range h]
  rfl

theorem exhausted_eq_false : (!d.exhausted s) = true ↔ (d.stream s).next < d.limit s := by
  unfold exhausted
  simp

theorem sum_room_opened :
    ∑ s ∈ (accept.filter fun s => !d.exhausted s).toFinset, (d.limit s - (d.stream s).next)
      = ∑ s ∈ accept.toFinset, (d.limit s - (d.stream s).next) := by
  refine Finset.sum_subset ?_ ?_
  · intro s hs
    rw [mem_toFinset] at hs ⊢
    exact (mem_filter.1 hs).1
  · intro s hs hns
    rw [mem_toFinset] at hs hns
    have hex : ¬ (d.stream s).next < d.limit s := fun h =>
      hns (mem_filter.2 ⟨hs, exhausted_eq_false.2 h⟩)
    omega

/-- The picks of the loop, without the shortcut for one stream. -/
def loopPicks (d : Dispenser) (accept : List Nat) (need : Nat) : List (Nat × Nat) :=
  nonzeros (d.interleave.pickLoop (accept.filter fun s => !d.exhausted s) need
    (d.streams.map (·.next)) (((d.streams.map (·.next)).map fun c : Nat => (c : Int)).sum)
    (List.replicate d.streams.length 0)) 0

theorem picked_loop (need : Nat) (hacc : ∀ s ∈ accept, s < d.streams.length) :
    Picked d accept need (loopPicks d accept need) := by
  unfold loopPicks
  generalize hop : (accept.filter fun s => !d.exhausted s) = opened
  generalize (((d.streams.map (·.next)).map fun c : Nat => (c : Int)).sum) = given
  have hmem : ∀ s ∈ opened, s ∈ accept ∧ (d.stream s).next < d.limit s := by
    intro s hs
    rw [← hop] at hs
    obtain ⟨h1, h2⟩ := mem_filter.1 hs
    exact ⟨h1, exhausted_eq_false.1 h2⟩
  obtain ⟨hlen, htaken⟩ := pickLoop_getD d.interleave opened need
    (d.streams.map (·.next)) given (replicate d.streams.length 0) (by simp)
  obtain ⟨l1, l2, l3, l4⟩ := loopCounts_spec d.interleave opened need (d.streams.map (·.next)) given
    (fun s hs => by rw [length_map]; exact hacc s (hmem s hs).1)
  generalize d.interleave.pickLoop opened need (d.streams.map (·.next)) given
    (replicate d.streams.length 0) = taken at hlen htaken
  generalize d.interleave.loopCounts opened need (d.streams.map (·.next)) given
    = counts at htaken l1 l2 l3 l4
  rw [length_map] at hlen
  have hgrow : ∀ s, taken.getD s 0 = counts.getD s 0 - (d.stream s).next := by
    intro s
    have h1 := htaken s
    have h2 := l2 s
    have h0 : (replicate d.streams.length 0).getD s 0 = 0 := by
      rw [getD_eq_getElem?_getD, getElem?_replicate]
      split <;> rfl
    rw [getD_nexts] at h1 h2
    omega
  have hzero : ∀ s, s ∉ opened → taken.getD s 0 = 0 := by
    intro s hs
    have h1 := l1 s hs
    rw [getD_nexts] at h1
    rw [hgrow, h1, Nat.sub_self]
  refine ⟨nodup_nonzeros _ _, ?_, ?_⟩
  · rintro ⟨s, n⟩ he
    obtain ⟨hpos, -, hget⟩ := mem_nonzeros.1 he
    have hn : taken.getD s 0 = n := by
      rw [getD_eq_getElem?_getD]
      simpa using congrArg (·.getD 0) hget
    have hs : s ∈ opened := by
      by_contra hs
      rw [hzero s hs] at hn
      exact absurd hpos (by show ¬ 0 < n; omega)
    obtain ⟨hsa, hlt⟩ := hmem s hs
    refine ⟨hsa, hpos, ?_⟩
    have h3 := l3 s
    have h2 := l2 s
    rw [getD_nexts] at h2 h3
    rw [getD_limits (hacc s hsa)] at h3
    have := hgrow s
    show (d.stream s).next + n ≤ d.limit s
    omega
  · have hsum := sum_range_getD (fun n => n) 0 taken
    rw [map_id', hlen] at hsum
    rw [sum_nonzeros, ← hsum, ← sum_room_opened, hop]
    have hroom : d.interleave.room opened.toFinset (d.streams.map (·.next))
        = ∑ s ∈ opened.toFinset, (d.limit s - (d.stream s).next) := by
      unfold room
      refine Finset.sum_congr rfl fun s hs => ?_
      rw [getD_nexts, getD_limits (hacc s (hmem s (mem_toFinset.1 hs)).1)]
    rw [← hroom, ← l4]
    have hsub : ∑ s ∈ opened.toFinset, taken.getD s 0
        = ∑ s ∈ Finset.range d.streams.length, taken.getD s 0 := by
      refine Finset.sum_subset ?_ ?_
      · intro s hs
        exact Finset.mem_range.2 (hacc s (hmem s (mem_toFinset.1 hs)).1)
      · intro s _ hs
        exact hzero s fun h => hs (mem_toFinset.2 h)
    rw [← hsub]
    exact Finset.sum_congr rfl fun s _ => by rw [hgrow, getD_nexts]

theorem Picked.eq_of_single {need : Nat} {picks : List (Nat × Nat)}
    (h : Picked d accept need picks) (hs : ∀ t ∈ accept, t = s) (hin : s ∈ accept) :
    picks = if min need (d.limit s - (d.stream s).next) = 0 then []
      else [(s, min need (d.limit s - (d.stream s).next))] := by
  have htotal := h.total
  have hsing : accept.toFinset = {s} := Finset.eq_singleton_iff_unique_mem.2
    ⟨mem_toFinset.2 hin, fun t ht => hs t (mem_toFinset.1 ht)⟩
  rw [hsing, Finset.sum_singleton] at htotal
  cases picks with
  | nil => exact (if_pos htotal.symm).symm
  | cons e picks =>
    obtain ⟨hacc, hpos, -⟩ := h.each e mem_cons_self
    cases picks with
    | nil =>
      rw [← htotal, if_neg (by simpa using hpos.ne')]
      exact congrArg (fun t => [(t, _)]) (hs _ hacc)
    | cons e' picks =>
      have hacc' := (h.each e' (mem_cons_of_mem _ mem_cons_self)).1
      have hne := (nodup_cons.1 h.distinct).1
      exact absurd (by simp [hs _ hacc, hs _ hacc']) hne

/-- The shortcut for one stream gives what the loop gives. -/
theorem pickFresh_eq (need : Nat) (hacc : ∀ s ∈ accept, s < d.streams.length) :
    d.pickFresh accept need = loopPicks d accept need := by
  have hloop := picked_loop need hacc
  dsimp only [pickFresh]
  split
  · next hnone =>
    have htotal := hloop.total
    have hzero : min need (∑ s ∈ accept.toFinset, (d.limit s - (d.stream s).next)) = 0 := by
      rcases hnone with hnone | hzero
      · simp [← sum_room_opened, isEmpty_iff.1 hnone]
      · simp [hzero]
    cases hl : loopPicks d accept need with
    | nil => rfl
    | cons e picks =>
      rw [hl] at htotal hloop
      have hpos := (hloop.each e mem_cons_self).2.1
      simp [hzero, hpos.ne'] at htotal
  · next hsome =>
    split
    · next hone =>
      -- one stream: it is the only one a list of streams can name
      obtain ⟨hne, hneed⟩ := not_or.1 hsome
      cases hop : (accept.filter fun s => !d.exhausted s) with
      | nil => rw [hop] at hne; exact absurd rfl hne
      | cons s opened =>
        have hs : s ∈ accept.filter fun s => !d.exhausted s := by
          rw [hop]
          exact mem_cons_self ..
        obtain ⟨hsa, hex⟩ := mem_filter.1 hs
        have hlt := exhausted_eq_false.1 hex
        have hsame : ∀ t ∈ accept, t = s := by
          intro t ht
          have h1 := hacc t ht
          have h2 := hacc s hsa
          omega
        rw [headD_cons, hloop.eq_of_single hsame hsa, if_neg (by omega)]
    · rfl

theorem picked_pickFresh (need : Nat) (hacc : ∀ s ∈ accept, s < d.streams.length) :
    Picked d accept need (d.pickFresh accept need) := by
  rw [pickFresh_eq need hacc]
  exact picked_loop need hacc

end Yeto.Dispense
