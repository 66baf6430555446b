/-
The merged index holds a prefix of every shard.

The interleaving of a pass keeps every shard's own order (`heapMerge_filter`).
While the merger's readers agree with the index (`ReadOk`), a batch appends the
next piece of each shard. After an index write that fell short, the readers
are ahead of the index until a new process counts again: `freshProcess`.
-/
import Yeto.SampleBuffer.Merge
import Yeto.Lib.Guards
import Mathlib.Algebra.Order.BigOperators.Group.List
import Mathlib.Algebra.Order.Group.Nat

namespace Yeto.SampleBuffer

open Lib List Shard ShardRecord SortedMap

variable {views : List (Nat × Nat)} {e : Nat × List Tagged} {rest : List (Nat × List Tagged)}
  {batch : List (Option Tagged)} {sh : Shard}

section Interleaving

variable {lists : List (Nat × List Tagged)} {s shard : Nat} {t : Tagged} {xs : List Tagged}

def part (s : Nat) (lists : List (Nat × List Tagged)) : List Tagged :=
  (lists.filter fun e => decide (e.1 = s)).flatMap Prod.snd

/-- One list a shard, and every record in the list of its shard. -/
structure Labelled (lists : List (Nat × List Tagged)) : Prop where
  nodup : (lists.map Prod.fst).Nodup
  own : ∀ e ∈ lists, ∀ t ∈ e.2, t.shard = e.1

theorem part_cons_self : part s ((s, xs) :: rest) = xs ++ part s rest := by simp [part]

theorem part_cons_ne (h : e.1 ≠ s) : part s (e :: rest) = part s rest := by simp [part, h]

theorem part_eq_nil (h : s ∉ lists.map Prod.fst) : part s lists = [] := by
  refine flatMap_eq_nil_iff.2 fun e he => ?_
  obtain ⟨he, hs⟩ := mem_filter.1 he
  exact absurd (mem_map.2 ⟨e, he, of_decide_eq_true hs⟩) h

theorem part_append {xs : List (Nat × List Tagged)} {ys : List (Nat × List Tagged)} :
    part s (xs ++ ys) = part s xs ++ part s ys := by
  unfold part
  rw [filter_append, flatMap_append]

theorem part_concat_self (h : s ∉ lists.map Prod.fst) : part s (lists ++ [(s, xs)]) = xs := by
  rw [part_append, part_eq_nil h, part_cons_self]
  exact append_nil xs

theorem part_concat_other (h : s ≠ shard) : part s (lists ++ [(shard, xs)]) = part s lists := by
  rw [part_append, part_cons_ne (Ne.symm h)]
  exact append_nil _

theorem fst_ne_of_mem (hnew : e.1 ∉ lists.map Prod.fst) (hmem : (s, xs) ∈ lists) : e.1 ≠ s := by
  intro heq
  exact hnew (heq ▸ mem_map_of_mem hmem)

theorem part_eq (h : (lists.map Prod.fst).Nodup) (hmem : (s, xs) ∈ lists) : part s lists = xs := by
  induction lists with
  | nil => cases hmem
  | cons e rest ih =>
    obtain ⟨hnew, hrest⟩ := nodup_cons.1 h
    rcases mem_cons.1 hmem with rfl | hmem
    · rw [part_cons_self, part_eq_nil hnew, append_nil]
    · rw [part_cons_ne (fst_ne_of_mem hnew hmem), ih hrest hmem]

theorem fst_popHead : (popHead shard lists).map Prod.fst = lists.map Prod.fst := by
  unfold popHead
  rw [map_map]
  refine map_congr_left fun e _ => ?_
  show (if e.1 = shard then (e.1, e.2.tail) else e).1 = e.1
  split <;> rfl

theorem Labelled.popHead (h : Labelled lists) (shard : Nat) : Labelled (popHead shard lists) := by
  refine ⟨?_, fun e he t ht => ?_⟩
  · rw [fst_popHead]
    exact h.nodup
  · obtain ⟨old, hold, rfl⟩ := mem_map.1 he
    by_cases heq : old.1 = shard
    · rw [if_pos heq] at ht ⊢
      exact h.own old hold t (mem_of_mem_tail ht)
    · rw [if_neg heq] at ht ⊢
      exact h.own old hold t ht

theorem part_popHead_self (h : Labelled lists) (hmem : (s, t :: xs) ∈ lists) :
    part s lists = t :: part s (popHead s lists) := by
  have htail : (s, xs) ∈ popHead s lists := by
    refine mem_map.2 ⟨(s, t :: xs), hmem, ?_⟩
    rw [if_pos rfl]
    rfl
  rw [part_eq h.nodup hmem, part_eq (h.popHead s).nodup htail]

theorem popHead_cons : popHead shard (e :: rest)
      = (if e.1 = shard then (e.1, e.2.tail) else e) :: popHead shard rest := rfl

theorem part_popHead_ne (hne : s ≠ shard) : part s (popHead shard lists) = part s lists := by
  induction lists with
  | nil => rfl
  | cons e rest ih =>
    obtain ⟨l, xs⟩ := e
    rw [popHead_cons]
    by_cases hs : l = s
    · subst hs
      rw [if_neg hne, part_cons_self, part_cons_self, ih]
    · have hpop : (if l = shard then (l, xs.tail) else (l, xs)).1 ≠ s := by split <;> exact hs
      rw [part_cons_ne hpop, ih, part_cons_ne hs]

theorem popHead_eq_self (h : s ∉ lists.map Prod.fst) : popHead s lists = lists := by
  refine (map_congr_left fun e he => ?_).trans (map_id' _)
  exact if_neg fun heq : e.1 = s => h (heq ▸ mem_map_of_mem he)

theorem totalLength_cons : totalLength (e :: rest) = e.2.length + totalLength rest := rfl

theorem totalLength_popHead (h : (lists.map Prod.fst).Nodup) (hmem : (s, t :: xs) ∈ lists) :
    totalLength (popHead s lists) + 1 = totalLength lists := by
  induction lists with
  | nil => cases hmem
  | cons e rest ih =>
    obtain ⟨hnew, hrest⟩ := nodup_cons.1 h
    rw [popHead_cons, totalLength_cons, totalLength_cons]
    rcases mem_cons.1 hmem with rfl | hmem
    · rw [if_pos rfl, popHead_eq_self hnew]
      show xs.length + _ + 1 = xs.length + 1 + _
      omega
    · have := ih hrest hmem
      rw [if_neg (fst_ne_of_mem hnew hmem)]
      omega

theorem leastHead_eq_none (h : leastHead lists = none) : ∀ e ∈ lists, e.2 = [] := by
  induction lists with
  | nil => nofun
  | cons e rest ih =>
    obtain ⟨s, l⟩ := e
    cases l with
    | nil =>
      intro e he
      rcases mem_cons.1 he with rfl | he
      · rfl
      · exact ih h e he
    | cons x xs =>
      unfold leastHead at h
      split at h
      · cases h
      · split at h <;> cases h

theorem leastHead_eq_some (h : leastHead lists = some t) : ∃ s xs, (s, t :: xs) ∈ lists := by
  induction lists with
  | nil => cases h
  | cons e rest ih =>
    obtain ⟨s, l⟩ := e
    have hrest : leastHead rest = some t → ∃ s' xs, (s', t :: xs) ∈ (s, l) :: rest := fun h =>
      let ⟨s', xs, hmem⟩ := ih h
      ⟨s', xs, mem_cons_of_mem _ hmem⟩
    cases l with
    | nil => exact hrest h
    | cons x xs =>
      unfold leastHead at h
      split at h
      · cases h
        exact ⟨s, xs, mem_cons_self ..⟩
      · next y hy =>
        split at h
        · cases h
          exact ⟨s, xs, mem_cons_self ..⟩
        · exact hrest (hy.trans h)

theorem part_of_empty (h : ∀ e ∈ lists, e.2 = []) : part s lists = [] :=
  flatMap_eq_nil_iff.2 fun e he => h e (mem_filter.1 he).1

theorem heapMerge_filter {fuel : Nat} :
    ∀ {lists : List (Nat × List Tagged)}, Labelled lists → totalLength lists ≤ fuel →
      (heapMerge fuel lists).filter (fun t => decide (t.shard = s)) = part s lists := by
  induction fuel with intro lists h hfuel
  | zero =>
    refine (part_of_empty (fun e he => ?_)).symm
    have hle : e.2.length ≤ totalLength lists := single_le_sum (fun _ _ => Nat.zero_le _) _
        (mem_map_of_mem he)
    exact length_eq_zero_iff.1 (by omega)
  | succ fuel ih =>
    unfold heapMerge
    split
    · next hnone => exact (part_of_empty (leastHead_eq_none hnone)).symm
    next t ht =>
    obtain ⟨l, xs, hmem⟩ := leastHead_eq_some ht
    have hl : t.shard = l := h.own _ hmem t (mem_cons_self ..)
    subst hl
    have hlen := totalLength_popHead h.nodup hmem
    have hrest := ih (h.popHead t.shard) (by omega)
    by_cases hs : t.shard = s
    · rw [filter_cons_of_pos (by simpa using hs), hrest, ← hs, part_popHead_self h hmem]
    · rw [filter_cons_of_neg (by simpa using hs), hrest, part_popHead_ne (Ne.symm hs)]

end Interleaving

section Reading

variable {index : List IndexRecord} {shards : Nat → Shard}
  {acc : List (Nat × List Tagged)} {m : Merger} {s shard seen : Nat}

theorem length_le_records (s : Nat) (sh : Shard) :
    (sh.tagged s).length ≤ (sh.records s).length := by
  unfold records
  rw [length_append, length_map]
  exact Nat.le_add_right _ _

theorem filterMap_records (s : Nat) (sh : Shard) (seen pos : Nat) :
    (((sh.records s).take seen).drop pos).filterMap tagged
      = ((sh.tagged s).take seen).drop pos := by
  have hsamples : ∀ l : List Tagged, (l.map sample).filterMap tagged = l := by
    intro l
    rw [filterMap_map]
    exact filterMap_some
  have hstop : ∀ l : List ShardRecord, l.Sublist [.stop] → l.filterMap tagged = [] := by
    intro l hl
    refine filterMap_eq_nil_iff.2 fun r hr => ?_
    rw [mem_singleton.1 (hl.subset hr)]
    rfl
  unfold records
  rw [take_append, drop_append, filterMap_append,
    ← map_take, ← map_drop, hsamples, hstop, append_nil]
  refine (drop_sublist _ _).trans ((take_sublist _ _).trans ?_)
  split
  · exact List.Sublist.refl _
  · exact nil_sublist _

theorem stop_mem_take (sh : Shard) (h : .stop ∈ (sh.records s).take seen) :
    sh.ended = true ∧ (sh.records s).length ≤ seen := by
  unfold records at h ⊢
  have hno : ∀ l : List Tagged, stop ∉ l.map sample := by
    intro l hl
    obtain ⟨t, -, heq⟩ := mem_map.1 hl
    cases heq
  split at h
  · next hended =>
    refine ⟨hended, ?_⟩
    rw [if_pos hended, length_append, length_singleton]
    by_contra hlt
    rw [take_append_of_le_length (by omega), ← map_take] at h
    exact hno _ h
  · rw [append_nil, ← map_take] at h
    exact absurd h (hno _)

/-- The merger's memory against the index and the records `acc` it has read
but not written: of every shard with a reader, what is merged and what is
read make up the shard up to the reader. -/
structure ReadOk (index : List IndexRecord) (shards : Nat → Shard)
    (acc : List (Nat × List Tagged)) (m : Merger) : Prop where
  labelled : Labelled acc
  read : ∀ s pos, m.readers.find s = some pos →
    mergedOf s index ++ part s acc = ((shards s).tagged s).take pos
      ∧ pos ≤ ((shards s).records s).length
  unread : ∀ s, m.readers.find s = none → s ∉ acc.map Prod.fst
  ended : ∀ s ∈ m.ended, (shards s).ended = true ∧ ∃ pos, m.readers.find s = some pos
      ∧ ((shards s).tagged s).length ≤ pos

theorem take_append_piece (sh : Shard) {pos : Nat} (hpos : pos ≤ (sh.records s).length) :
    (sh.tagged s).take pos ++ ((sh.tagged s).take seen).drop pos = (sh.tagged s).take
        (pos + (((sh.records s).take seen).drop pos).length) := by
  have hle := length_le_records s sh
  rw [length_drop, length_take]
  rcases lt_or_ge pos seen with hlt | hge
  · have htake : (sh.tagged s).take pos = ((sh.tagged s).take seen).take pos := by
      rw [take_take, Nat.min_eq_left hlt.le]
    rw [htake, take_append_drop]
    have hpos' : pos + (min seen (sh.records s).length - pos)
        = min seen (sh.records s).length := by omega
    rw [hpos']
    rcases Nat.le_total seen (sh.records s).length with h | h
    · rw [Nat.min_eq_left h]
    · rw [Nat.min_eq_right h, take_of_length_le (le_trans hle h), take_of_length_le hle]
  · have hnil : ((sh.tagged s).take seen).drop pos = [] := by
      refine drop_eq_nil_of_le ?_
      rw [length_take]
      exact le_trans (Nat.min_le_left _ _) hge
    have hzero : min seen (sh.records s).length - pos = 0 := by omega
    rw [hnil, hzero, append_nil, Nat.add_zero]

theorem ReadOk.readShard (h : ReadOk index shards acc m) (seen : Nat)
    (hnew : shard ∉ acc.map Prod.fst)
    (hmerged0 : mergedOf shard index <+: (shards shard).tagged shard) : ReadOk index shards
      (acc ++ [(shard, (m.readShard index shards shard seen).1)])
      (m.readShard index shards shard seen).2 := by
  have hle := length_le_records shard (shards shard)
  -- What is merged is the shard up to where the reading starts.
  obtain ⟨pos, hpos, hmerged, hbound, hold⟩ : ∃ pos,
      (m.readers.find shard).getD (mergedOf shard index).length = pos
      ∧ mergedOf shard index = ((shards shard).tagged shard).take pos
      ∧ pos ≤ ((shards shard).records shard).length
      ∧ ∀ old, m.readers.find shard = some old → old = pos := by
    cases hfind : m.readers.find shard with
    | none =>
      refine ⟨_, rfl, prefix_iff_eq_take.1 hmerged0, ?_, nofun⟩
      exact le_trans hmerged0.length_le hle
    | some old =>
      obtain ⟨hread, hb⟩ := h.read shard old hfind
      rw [part_eq_nil hnew, append_nil] at hread
      exact ⟨old, rfl, hread, hb, fun _ h => (Option.some.inj h).symm⟩
  dsimp only [Merger.readShard]
  rw [hpos]
  have hpiece := filterMap_records shard (shards shard) seen pos
  have hlen : pos + ((((shards shard).records shard).take seen).drop
      pos).length ≤ ((shards shard).records shard).length := by
    rw [length_drop, length_take]
    omega
  refine ⟨⟨?_, ?_⟩, fun s q hq => ?_, fun s hs => ?_, fun s hs => ?_⟩
  · rw [map_append, nodup_append]
    refine ⟨h.labelled.nodup, nodup_singleton _, ?_⟩
    rintro a ha _ hb rfl
    have heq : a = shard := mem_singleton.1 hb
    exact hnew (heq ▸ ha)
  · intro e he t ht
    rcases mem_snoc.1 he with he | rfl
    · exact h.labelled.own e he t ht
    · rw [hpiece] at ht
      obtain ⟨x, -, rfl⟩ := mem_map.1 (mem_of_mem_take (mem_of_mem_drop ht))
      rfl
  · obtain ⟨rfl, rfl⟩ | ⟨hne, hq⟩ := find_insert_cases hq
    · refine ⟨?_, hlen⟩
      rw [part_concat_self hnew, hpiece, hmerged]
      exact take_append_piece _ hbound
    · rw [part_concat_other hne]
      exact h.read s q hq
  · rw [find_insert] at hs
    split at hs
    · cases hs
    · next hne =>
      rw [map_append, mem_append, not_or]
      refine ⟨h.unread s hs, ?_⟩
      rw [map_singleton, mem_singleton]
      exact hne
  · -- The shard read now, with its end, or one that had ended before.
    have hcase : s ∈ m.ended ∨ s = shard ∧ stop ∈ (((shards shard).records shard).take seen).drop
          pos := by
      split at hs
      · next hstop =>
        rcases mem_cons.1 hs with rfl | hs
        · exact .inr ⟨rfl, contains_iff_mem.1 hstop⟩
        · exact .inl hs
      · exact .inl hs
    rw [find_insert]
    rcases hcase with hs | ⟨rfl, hstop⟩
    · obtain ⟨hended, old, hfind, hall⟩ := h.ended s hs
      refine ⟨hended, ?_⟩
      split
      · next heq =>
        subst heq
        refine ⟨_, rfl, ?_⟩
        rw [← hold old hfind]
        exact le_trans hall (Nat.le_add_right _ _)
      · exact ⟨old, hfind, hall⟩
    · obtain ⟨hended, hseen⟩ := stop_mem_take _ (mem_of_mem_drop hstop)
      refine ⟨hended, _, if_pos rfl, ?_⟩
      rw [length_drop, length_take]
      omega

theorem ReadOk.readAll (hmerged0 : ∀ s, mergedOf s index <+: (shards s).tagged s)
    (hviews : (views.map Prod.fst).Nodup) : ∀ {acc : List (Nat × List Tagged)} {m : Merger},
      ReadOk index shards acc m → (∀ v ∈ views.map Prod.fst, v ∉ acc.map Prod.fst) →
      ReadOk index shards (acc ++ (m.readAll index shards views).1)
        (m.readAll index shards views).2 := by
  induction views with
  | nil =>
    intro acc m h _
    unfold Merger.readAll
    rw [append_nil]
    exact h
  | cons view views ih =>
    intro acc m h hnew
    obtain ⟨hview, hrest⟩ := nodup_cons.1 hviews
    have hfirst := h.readShard view.2 (hnew view.1 (mem_cons_self ..)) (hmerged0 view.1)
    have := ih hrest hfirst ?_
    · rw [append_assoc] at this
      exact this
    · intro v hv
      rw [map_append, mem_append, not_or]
      refine ⟨hnew v (mem_cons_of_mem _ hv), ?_⟩
      rw [map_singleton, mem_singleton]
      rintro rfl
      exact hview hv

end Reading

section Writing

variable {index : List IndexRecord} {shards : Nat → Shard} {m : Merger}
  {s : Nat} {new : List (Nat × List Tagged)}

theorem map_tagged_numbered (start : Nat) (batch : List (Option Tagged)) :
    (numbered start batch).map IndexRecord.tagged = batch := by
  induction batch generalizing start with
  | nil => rfl
  | cons r rest ih => cases r <;> exact congrArg (_ :: ·) (ih _)

theorem length_numbered {start : Nat} : (numbered start batch).length = batch.length := by
  rw [← length_map IndexRecord.tagged, map_tagged_numbered]

theorem pos_numbered (start : Nat) :
    (numbered start batch).map IndexRecord.pos = List.range' start batch.length := by
  induction batch generalizing start with
  | nil => rfl
  | cons r rest ih => cases r <;> exact congrArg (start :: ·) (ih _)

theorem mergedOf_append {start : Nat} :
    mergedOf s (index ++ numbered start batch) = mergedOf s index
        ++ (batch.filterMap id).filter fun t => decide (t.shard = s) := by
  unfold mergedOf
  nth_rewrite 2 [← map_tagged_numbered start batch]
  rw [filterMap_append, filter_append, filterMap_map]
  rfl

theorem filterMap_batch {named : Option (List Nat)} :
    (m.batch named new).filterMap id = heapMerge (totalLength new) new := by
  unfold Merger.batch
  rw [filterMap_append, filterMap_map]
  have hend : ∀ p : Prop, [Decidable p] →
      (if p then [none] else [] : List (Option Tagged)).filterMap id = [] := by
    intro p _
    split <;> rfl
  rw [hend, append_nil]
  exact filterMap_some

theorem filter_batch {named : Option (List Nat)} (h : Labelled new) :
    ((m.batch named new).filterMap id).filter (fun t => decide (t.shard = s)) = part s new := by
  rw [filterMap_batch]
  exact heapMerge_filter h le_rfl

theorem ReadOk.prefix_written (h : ReadOk index shards new m)
    (hmerged0 : mergedOf s index <+: (shards s).tagged s) (named : Option (List Nat))
    {written : List (Option Tagged)} (hwritten : written <+: m.batch named new) (start : Nat) :
    mergedOf s (index ++ numbered start written) <+: (shards s).tagged s := by
  have hpart : (written.filterMap id).filter (fun t => decide (t.shard = s)) <+: part s new := by
    rw [← filter_batch h.labelled]
    exact (hwritten.filterMap id).filter _
  rw [mergedOf_append]
  cases hfind : m.readers.find s with
  | none =>
    rw [part_eq_nil (h.unread s hfind), prefix_nil] at hpart
    rw [hpart, append_nil]
    exact hmerged0
  | some pos =>
    refine List.IsPrefix.trans ((prefix_append_right_inj _).2 hpart) ?_
    rw [(h.read s pos hfind).1]
    exact take_prefix _ _

theorem ReadOk.written (h : ReadOk index shards new m) (named : Option (List Nat)) (start : Nat) :
    ReadOk (index ++ numbered start (m.batch named new)) shards [] m where
  labelled := ⟨nodup_nil, nofun⟩
  read s pos hfind := by
    rw [mergedOf_append, filter_batch h.labelled]
    have hnil : part s [] = [] := rfl
    rw [hnil, append_nil]
    exact h.read s pos hfind
  unread _ _ := not_mem_nil
  ended := h.ended

section

variable {named : Option (List Nat)} {written : List (Option Tagged)}
  (hwritten : written <+: m.batch named new)
include hwritten

/-- A part of a batch is a part of its samples, or all of them with a part
of what follows. -/
theorem written_cases : (∀ r ∈ written, r ≠ none)
    ∨ written = m.batch named new ∧ (∀ r ∈ written.dropLast, r ≠ none)
      ∧ ∀ s ∈ m.expected named, s ∈ m.ended := by
  have hsome : ∀ r ∈ (heapMerge (totalLength new) new).map some, r ≠ none := by
    intro r hr
    obtain ⟨t, -, rfl⟩ := mem_map.1 hr
    exact Option.some_ne_none t
  obtain ⟨rest, hrest⟩ := hwritten
  unfold Merger.batch at hrest ⊢
  split at hrest
  · next hall =>
    rcases append_eq_append_iff.1 hrest with
      ⟨l, hl, -⟩ | ⟨l, hl, htail⟩
    · left
      intro r hr
      exact hsome r (hl ▸ mem_append_left _ hr)
    · cases l with
      | nil =>
        left
        intro r hr
        rw [hl, append_nil] at hr
        exact hsome r hr
      | cons x l =>
        -- The end record is the only one after the samples.
        obtain ⟨rfl, hnil⟩ := List.cons.inj htail
        obtain ⟨rfl, rfl⟩ := append_eq_nil_iff.1 hnil.symm
        right
        rw [if_pos hall, hl]
        refine ⟨rfl, fun r hr => ?_, hall.2⟩
        rw [dropLast_concat] at hr
        exact hsome r hr
  · left
    intro r hr
    rw [append_nil] at hrest
    exact hsome r (hrest ▸ mem_append_left _ hr)

theorem mem_dropLast_written : ∀ r ∈ written.dropLast, r ≠ none := by
  rcases written_cases hwritten with hsome | ⟨-, hlast, -⟩
  · exact fun r hr => hsome r (mem_of_mem_dropLast hr)
  · exact hlast

end

theorem dropLast_numbered (start : Nat) (batch : List (Option Tagged)) :
    ∀ r ∈ (numbered start batch).dropLast, r.tagged ∈ batch.dropLast := by
  intro r hr
  rw [← map_tagged_numbered start batch, ← map_dropLast]
  exact mem_map_of_mem hr

end Writing

/-- What a merged index satisfies: positions without gaps, a prefix of every
shard in the shard's order, and nothing after the end record. -/
structure MergedOk (w : MergeWorld) : Prop where
  positions : w.index.map IndexRecord.pos = List.range w.index.length
  prefixes : ∀ s, mergedOf s w.index <+: (w.shards s).tagged s
  last : ∀ r ∈ w.index.dropLast, r.tagged ≠ none

/-- No pass of a process whose index write fell short. -/
def freshProcess (w : MergeWorld) : MergeOp → Bool
  | .pass _ => !w.short
  | _ => true

structure MergeInv (w : MergeWorld) : Prop where
  ok : MergedOk w
  read : w.short = false → indexEnded w.index = false → ReadOk w.index w.shards [] w.merger

section Runs

variable {named : Option (List Nat)} {w w' : MergeWorld} {index : List IndexRecord}

theorem readOk_new (shards : Nat → Shard) : ReadOk index shards [] .new where
  labelled := ⟨nodup_nil, nofun⟩
  read := nofun
  unread _ _ := not_mem_nil
  ended := nofun

theorem mergeInv_new : MergeInv .new := ⟨⟨rfl, fun _ => nil_prefix, nofun⟩, fun _ _ => readOk_new _⟩

theorem MergeInv.setShard (h : MergeInv w) {shard : Nat} (hopen : (w.shards shard).ended = false)
    (hgrow : (w.shards shard).tagged shard <+: sh.tagged shard) :
    MergeInv (w.setShard shard sh) := by
  -- An open shard has no records but its samples.
  have hlen : ((w.shards shard).records shard).length = ((w.shards shard).tagged shard).length := by
    unfold records
    rw [if_neg (by rw [hopen]; decide), append_nil, length_map]
  have hrec := hgrow.length_le.trans (length_le_records shard sh)
  have hself : (w.setShard shard sh).shards shard = sh := Function.update_self ..
  have hother : ∀ s ≠ shard, (w.setShard shard sh).shards s = w.shards s :=
    fun s hs => Function.update_of_ne hs ..
  refine ⟨⟨h.ok.positions, fun s => ?_, h.ok.last⟩, fun hshort hended => ?_⟩
  · by_cases hs : s = shard
    · subst hs
      rw [hself]
      exact (h.ok.prefixes s).trans hgrow
    · rw [hother s hs]
      exact h.ok.prefixes s
  · have hread := h.read hshort hended
    refine ⟨hread.labelled, fun s pos hfind => ?_, hread.unread, fun s hs => ?_⟩
    · obtain ⟨hmerged, hpos⟩ := hread.read s pos hfind
      by_cases hs : s = shard
      · subst hs
        rw [hself]
        rw [hlen] at hpos
        refine ⟨?_, hpos.trans hrec⟩
        obtain ⟨rest, hrest⟩ := hgrow
        rw [← hrest, take_append_of_le_length hpos]
        exact hmerged
      · rw [hother s hs]
        exact ⟨hmerged, hpos⟩
    · obtain ⟨hend, hpos⟩ := hread.ended s hs
      have hne : s ≠ shard := by
        rintro rfl
        rw [hopen] at hend
        cases hend
      rw [hother s hne]
      exact ⟨hend, hpos⟩

theorem tagged_concat {shard : Nat} {samples : List Sample} {s : Sample} {b : Bool} :
    Shard.tagged shard ⟨samples, b⟩ <+: Shard.tagged shard ⟨samples ++ [s], false⟩ := by
  unfold Shard.tagged
  rw [zipIdx_append, map_append]
  exact prefix_append _ _

theorem written_isPrefix (p : Pass) (batch : List (Option Tagged)) : p.written batch <+: batch := by
  unfold Pass.written
  split
  · exact prefix_refl _
  · exact take_prefix _ _

theorem merge_eq (w : MergeWorld) (p : Pass) (hended : indexEnded w.index = false) :
    w.merge named p = let read := w.merger.readAll w.index w.shards p.views
      let batch := read.2.batch named read.1
      { w with
        index := w.index ++ numbered w.index.length (p.written batch)
        merger := read.2
        short := w.short
          || decide ((p.written batch).length < batch.length) } := by
  unfold MergeWorld.merge
  rw [if_neg (by rw [hended]; decide)]

theorem indexEnded_eq_false (h : indexEnded index = false) : ∀ r ∈ index, r.tagged ≠ none := by
  intro r hr hnone
  have := any_eq_false.1 h r hr
  rw [hnone] at this
  exact this rfl

theorem MergeInv.readAll (h : MergeInv w) (hviews : (views.map Prod.fst).Pairwise (· < ·))
    (hshort : w.short = false) (hopen : indexEnded w.index = false) :
    ReadOk w.index w.shards (w.merger.readAll w.index w.shards views).1
      (w.merger.readAll w.index w.shards views).2 := by
  have hread := ReadOk.readAll h.ok.prefixes
    (hviews.imp fun hlt => ne_of_lt hlt) (h.read hshort hopen) (fun _ _ => not_mem_nil)
  rwa [nil_append] at hread

theorem MergeInv.pass (h : MergeInv w) (p : Pass) (hviews : (p.views.map Prod.fst).Pairwise (· < ·))
    (hshort : w.short = false) : MergeInv (w.merge named p) := by
  cases hended : indexEnded w.index with
  | true =>
    unfold MergeWorld.merge
    rw [if_pos hended]
    refine ⟨⟨h.ok.positions, h.ok.prefixes, h.ok.last⟩, fun _ hno => ?_⟩
    rw [hended] at hno
    cases hno
  | false =>
    have hread := h.readAll hviews hshort hended
    rw [merge_eq w p hended]
    generalize w.merger.readAll w.index w.shards p.views = read at hread ⊢
    obtain ⟨new, m⟩ := read
    dsimp only at hread ⊢
    have hpre := written_isPrefix p (m.batch named new)
    refine ⟨⟨?_, fun s => ?_, fun r hr => ?_⟩, fun hs _ => ?_⟩
    · rw [map_append, h.ok.positions, pos_numbered, length_append,
        length_numbered, range_eq_range', range_eq_range']
      have := List.range'_append_1 (s := 0) (m := w.index.length)
        (n := (p.written (m.batch named new)).length)
      rw [Nat.zero_add] at this
      exact this
    · exact hread.prefix_written (h.ok.prefixes s) named hpre _
    · have hsample := indexEnded_eq_false hended
      rcases eq_nil_or_concat (numbered w.index.length
          (p.written (m.batch named new))) with hnil | ⟨l, x, hconcat⟩
      · rw [hnil, append_nil] at hr
        exact hsample r (mem_of_mem_dropLast hr)
      · have hlast := dropLast_numbered w.index.length (p.written (m.batch named new))
        rw [concat_eq_append] at hconcat
        rw [hconcat, ← append_assoc, dropLast_concat] at hr
        rw [hconcat, dropLast_concat] at hlast
        rcases mem_append.1 hr with hr | hr
        · exact hsample r hr
        · exact mem_dropLast_written hpre _ (hlast r hr)
    · -- The whole batch is in the index.
      have hall : p.written (m.batch named new) = m.batch named new := by
        refine hpre.eq_of_length_le ?_
        rw [hshort, Bool.false_or, decide_eq_false_iff_not] at hs
        exact not_lt.1 hs
      rw [hall]
      exact hread.written named _

theorem MergeInv.step (h : MergeInv w) {op : MergeOp}
    (hfresh : freshProcess w op = true) (hexec : w.exec named op = some w') : MergeInv w' := by
  cases op with
  | append shard s =>
    obtain ⟨hopen, hexec⟩ := Option.ite_none_left_eq_some.1 hexec
    cases hexec
    exact h.setShard (Bool.eq_false_iff.2 hopen) tagged_concat
  | endShard shard =>
    obtain ⟨hopen, hexec⟩ := Option.ite_none_left_eq_some.1 hexec
    cases hexec
    exact h.setShard (Bool.eq_false_iff.2 hopen) (prefix_refl _)
  | pass p =>
    obtain ⟨hviews, rfl⟩ := of_guard hexec
    exact h.pass p hviews ((Bool.not_eq_true' _).mp hfresh)
  | restart =>
    cases hexec
    exact ⟨⟨h.ok.positions, h.ok.prefixes, h.ok.last⟩, fun _ _ => readOk_new _⟩

theorem mergeInv_reachable (h : (mergeRuns named freshProcess).Reachable w) : MergeInv w :=
  System.guarded_invariant mergeInv_new (fun _ _ _ hinv hfresh hexec => hinv.step hfresh hexec) h

theorem indexEnded_eq_true (h : indexEnded index = true) : ∃ r ∈ index, r.tagged = none := by
  obtain ⟨r, hr, hnone⟩ := any_eq_true.1 h
  exact ⟨r, hr, Option.isNone_iff_eq_none.1 hnone⟩

theorem ReadOk.complete {shards : Nat → Shard}
    {m : Merger} (h : ReadOk index shards [] m) {s : Nat} (hs : s ∈ m.ended) :
    (shards s).ended = true ∧ mergedOf s index = (shards s).tagged s := by
  obtain ⟨hended, pos, hfind, hall⟩ := h.ended s hs
  have hread := (h.read s pos hfind).1
  rw [take_of_length_le hall] at hread
  refine ⟨hended, ?_⟩
  rw [← hread]
  exact (append_nil _).symm

theorem MergeInv.pass_ends (h : MergeInv w) {p : Pass}
    (hviews : (p.views.map Prod.fst).Pairwise (· < ·)) (hshort : w.short = false)
    (hopen : indexEnded w.index = false) (hend : indexEnded (w.merge named p).index = true) :
    ∀ s ∈ (w.merge named p).merger.expected named, ((w.merge named p).shards s).ended = true
      ∧ mergedOf s (w.merge named p).index = ((w.merge named p).shards s).tagged s := by
  have hread := h.readAll hviews hshort hopen
  rw [merge_eq w p hopen] at hend ⊢
  generalize w.merger.readAll w.index w.shards p.views = read at hread hend ⊢
  obtain ⟨new, m⟩ := read
  dsimp only at hread hend ⊢
  intro s hs
  obtain ⟨r, hr, hnone⟩ := indexEnded_eq_true hend
  rcases written_cases (written_isPrefix p (m.batch named new)) with
    hsome | ⟨hall, -, hended⟩
  · -- A batch without the end record does not end the index.
    exfalso
    rcases mem_append.1 hr with hr | hr
    · exact indexEnded_eq_false hopen r hr hnone
    · refine hsome _ ?_ hnone
      rw [← map_tagged_numbered w.index.length (p.written _)]
      exact mem_map_of_mem hr
  · rw [hall]
    exact (hread.written named _).complete (hended s hs)

theorem index_setShard {shard : Nat} : (w.setShard shard sh).index = w.index := rfl

/-- The merged index is a gapless list that ends at its end record, with a
prefix of every shard in it, and the step that writes the end record has all
of every expected shard in the index. A merger whose index write fell short
is not asked for another pass before it is started again. -/
theorem merged_index (named : Option (List Nat)) {w : MergeWorld}
    (h : (mergeRuns named freshProcess).Reachable w) :
    w.index.map IndexRecord.pos = List.range w.index.length
    ∧ (∀ s, mergedOf s w.index <+: (w.shards s).tagged s)
    ∧ (∀ before r after, w.index = before ++ r :: after → r.tagged = none → after = [])
    ∧ ∀ op w', freshProcess w op = true → w.exec named op = some w' →
        indexEnded w.index = false → indexEnded w'.index = true →
        ∀ s ∈ w'.merger.expected named, (w'.shards s).ended = true
          ∧ mergedOf s w'.index = (w'.shards s).tagged s := by
  have hinv := mergeInv_reachable h
  refine ⟨hinv.ok.positions, hinv.ok.prefixes, ?_, ?_⟩
  · intro before r after heq hnone
    by_contra hne
    refine hinv.ok.last r ?_ hnone
    rw [heq, dropLast_append_of_ne_nil (cons_ne_nil r after), dropLast_cons_of_ne_nil hne]
    exact mem_append_cons_self
  · intro op w' hfresh hexec hopen hend
    cases op with
    | append | endShard =>
      obtain ⟨-, hexec⟩ := Option.ite_none_left_eq_some.1 hexec
      cases hexec
      rw [index_setShard, hopen] at hend
      cases hend
    | pass p =>
      obtain ⟨hviews, rfl⟩ := of_guard hexec
      exact hinv.pass_ends hviews ((Bool.not_eq_true' _).mp hfresh) hopen hend
    | restart =>
      cases hexec
      rw [hopen] at hend
      cases hend

/-- Two shards, a write that fails in the middle, a restart, and the end. -/
def resumedMerge : List MergeOp := [.append 0 ⟨[10], 1⟩, .append 1 ⟨[5], 2⟩,
    .pass ⟨[(0, 1), (1, 1)], some 1⟩, .restart, .append 0 ⟨[11], 3⟩,
    .endShard 0, .endShard 1, .pass ⟨[(0, 3), (1, 2)], none⟩]

/-- The restarted merger takes up both shards where the index has them, and
`merged_index` speaks of what it leaves. -/
theorem merged_index_resumed : ∃ w, (mergeRuns none freshProcess).Reachable w
      ∧ w.index.map IndexRecord.pos = [0, 1, 2, 3]
      ∧ (mergedOf 0 w.index).length = 2 ∧ (mergedOf 1 w.index).length = 1
      ∧ mergedOf 0 w.index <+: (w.shards 0).tagged 0 := by
  obtain ⟨w, hreach, hpos, hzero, hone⟩ : ∃ w, (mergeRuns none freshProcess).Reachable w
      ∧ w.index.map IndexRecord.pos = [0, 1, 2, 3]
      ∧ (mergedOf 0 w.index).length = 2 ∧ (mergedOf 1 w.index).length = 1 :=
    System.exists_reachable resumedMerge (by decide +kernel)
  exact ⟨w, hreach, hpos, hzero, hone, (merged_index none hreach).2.1 0⟩

/-- ONE FAILED WRITE LOSES RECORDS: the reader is behind the first record
when the write fails, and the next pass of the same process reads on from
there. What is merged is no prefix of the shard. -/
theorem failed_write_skips_record : ∃ w, (mergeRuns none fun _ _ => true).Reachable w
      ∧ mergedOf 0 w.index = [⟨0, 1, ⟨[11], 2⟩⟩]
      ∧ ¬ mergedOf 0 w.index <+: (w.shards 0).tagged 0 :=
  System.exists_reachable [.append 0 ⟨[10], 1⟩, .pass ⟨[(0, 1)], some 0⟩,
    .append 0 ⟨[11], 2⟩, .pass ⟨[(0, 2)], none⟩] (by decide +kernel)

end Runs

end Yeto.SampleBuffer
