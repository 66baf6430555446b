/-
Cells under the dispenser's loops. Each loop gets one conservation equation
(the cells before are the cells taken plus the cells left) and one membership
lemma (where a span of the result came from).
-/
import Yeto.Dispense.System

namespace Yeto.Dispense

open Lib Dispenser List

variable {l : List StreamState} {x : Nat × Nat} {s sp : Span}

@[simp] theorem cellsOf_nil : cellsOf [] = 0 := rfl

@[simp] theorem cellsOf_cons (s : Span) (l : List Span) :
    cellsOf (s :: l) = s.cells + cellsOf l := by
  unfold cellsOf
  rw [map_cons, sum_cons]

@[simp] theorem cellsOf_append (a b : List Span) : cellsOf (a ++ b) = cellsOf a + cellsOf b := by
  unfold cellsOf
  rw [map_append, sum_append]

theorem mem_cells : x ∈ s.cells ↔ s.start ≤ x.1 ∧ x.1 < s.stop ∧ x.2 = s.redo := mem_tagged

theorem mem_cellsOf {l : List Span} : x ∈ cellsOf l ↔ ∃ s ∈ l, x ∈ s.cells := by
  induction l with
  | nil => simp
  | cons s l ih => simp [ih]

theorem items_cells (s : Span) :
    Ledger.items s.cells = Multiset.Ico s.start s.stop := fst_tagged _ _ _

theorem positions_range (l : List Span) :
    positions (l.map Span.range) = Ledger.items (cellsOf l) := by
  induction l with
  | nil => rfl
  | cons s l ih =>
    rw [map_cons, positions_cons, cellsOf_cons, Ledger.items_add, ih, items_cells]
    rfl

/-- A nonempty span within 64 bits. -/
def Proper (s : Span) : Prop := s.start < s.stop ∧ s.stop < 2 ^ 64

theorem len_of_proper (h : Proper s) : s.len = s.stop - s.start := wsub_of_le h.1.le h.2

theorem card_cells (h : Proper s) : s.cells.card = s.len := by
  rw [len_of_proper h]
  exact card_tagged _ _ _

theorem foldl_wadd {l : List Nat} : ∀ a : Nat, a < 2 ^ 64 →
    l.foldl wadd a = (a + l.sum) % 2 ^ 64 := by
  induction l with intro a ha
  | nil => rw [foldl_nil, sum_nil, Nat.add_zero, Nat.mod_eq_of_lt ha]
  | cons x l ih =>
    have hlt : wadd a x < 2 ^ 64 := by exact Nat.mod_lt _ (by decide)
    rw [foldl_cons, sum_cons, ih _ hlt]
    unfold wadd
    rw [Nat.mod_add_mod, Nat.add_assoc]

/-- The length of proper spans counts their positions. -/
theorem lenSum_eq {l : List Span} (h : ∀ s ∈ l, Proper s) :
    lenSum l = (cellsOf l).card % 2 ^ 64 := by
  have hsum : (l.map Span.len).sum = (cellsOf l).card := by
    induction l with
    | nil => rfl
    | cons s l ih =>
      obtain ⟨hs, hl⟩ := forall_mem_cons.1 h
      rw [map_cons, sum_cons, cellsOf_cons, Multiset.card_add, card_cells hs, ih hl]
  unfold lenSum
  rw [foldl_wadd 0 (by decide), hsum, Nat.zero_add]

theorem sortSpans_perm {l : List Span} : (sortSpans l).Perm l := perm_insertionSort _ l

theorem mem_sortSpans {l : List Span} : s ∈ sortSpans l ↔ s ∈ l := sortSpans_perm.mem_iff

theorem cellsOf_sortSpans (l : List Span) : cellsOf (sortSpans l) = cellsOf l :=
  (sortSpans_perm.map _).sum_eq

@[simp] theorem length_pushSpan : (pushSpan sp l).length = l.length := length_modify _ _ _

/-- A span goes to the front of the queue of its stream. -/
theorem getD_pushSpan (h : streamOf sp.start < l.length) {s : Nat} :
    (pushSpan sp l).getD s .default = if s = streamOf sp.start
        then { l.getD s .default with
          queue := sp :: (l.getD s .default).queue }
        else l.getD s .default := by
  unfold pushSpan
  rw [getD_modify _ _ _ _ h]
  split
  · next he => rw [he]
  · rfl

section

variable (spans : List Span)

theorem foldr_pushSpan_next (l : List StreamState) : (spans.foldr pushSpan l).length = l.length
      ∧ ∀ s, ((spans.foldr pushSpan l).getD s .default).next = (l.getD s .default).next
        ∧ ((spans.foldr pushSpan l).getD s .default).passesStarted
          = (l.getD s .default).passesStarted := by
  induction spans with
  | nil => exact ⟨rfl, fun s => ⟨rfl, rfl⟩⟩
  | cons sp spans ih =>
    obtain ⟨hlen, hst⟩ := ih
    rw [foldr_cons]
    refine ⟨by rw [length_pushSpan, hlen], fun s => ?_⟩
    refine ⟨(getD_modify_of_eq StreamState.next ?_ ..).trans (hst s).1,
      (getD_modify_of_eq StreamState.passesStarted ?_ ..).trans (hst s).2⟩ <;> exact fun _ => rfl

/-- The queues after a list of pushes: the pushed spans of the stream, in
order, in front of the queue. -/
theorem foldr_pushSpan_queue (l : List StreamState)
    (h : ∀ sp ∈ spans, streamOf sp.start < l.length) (s : Nat) :
    ((spans.foldr pushSpan l).getD s .default).queue
      = (spans.filter fun sp => decide (streamOf sp.start = s)) ++ (l.getD s .default).queue := by
  induction spans with
  | nil => rfl
  | cons sp spans ih =>
    obtain ⟨hsp, hspans⟩ := forall_mem_cons.1 h
    rw [foldr_cons, getD_pushSpan (by rw [(foldr_pushSpan_next spans l).1]; exact hsp)]
    by_cases hs : s = streamOf sp.start
    · rw [if_pos hs, filter_cons_of_pos (by simp [hs])]
      show sp :: ((spans.foldr pushSpan l).getD s .default).queue = _
      rw [ih hspans]
      rfl
    · rw [if_neg hs, filter_cons_of_neg (by simpa using Ne.symm hs), ih hspans]

theorem sum_filter_streams (n : Nat) (h : ∀ sp ∈ spans, streamOf sp.start < n) :
    ∑ s ∈ Finset.range n, cellsOf (spans.filter fun sp => decide (streamOf sp.start = s))
      = cellsOf spans := by
  induction spans with
  | nil => simp
  | cons sp spans ih =>
    obtain ⟨hsp, hspans⟩ := forall_mem_cons.1 h
    rw [cellsOf_cons, ← ih hspans]
    refine sum_range_add hsp ?_ ?_
    · intro s hs
      rw [filter_cons_of_neg (by simpa using Ne.symm hs)]
    · rw [filter_cons_of_pos (by simp), cellsOf_cons]

/-- Returned spans are in the queues. -/
theorem queueCells_foldr_pushSpan (l : List StreamState)
    (h : ∀ sp ∈ spans, streamOf sp.start < l.length) :
    queueCells (spans.foldr pushSpan l) = cellsOf spans + queueCells l := by
  unfold queueCells
  rw [(foldr_pushSpan_next spans l).1, ← sum_filter_streams spans _ h, ← Finset.sum_add_distrib]
  refine Finset.sum_congr rfl fun s _ => ?_
  rw [foldr_pushSpan_queue spans l h, cellsOf_append]

end

theorem givenOf_congr {l' : List StreamState} (hlen : l'.length = l.length)
    (h : ∀ s, (l'.getD s .default).next = (l.getD s .default).next) : givenOf l' = givenOf l := by
  unfold givenOf
  rw [hlen]
  exact Finset.sum_congr rfl fun s _ => by rw [h]

/-- No position is given out twice. -/
theorem nodup_givenOf (h : ∀ s < l.length, (l.getD s .default).next ≤ 2 ^ 40) :
    (givenOf l).Nodup := by
  unfold givenOf
  generalize l.length = n at h
  induction n with
  | zero => simp
  | succ n ih =>
    rw [Finset.sum_range_succ]
    refine Multiset.nodup_add.2 ⟨ih fun s hs => h s (by omega), Multiset.nodup_Ico, ?_⟩
    rw [Multiset.disjoint_left]
    intro p hp hp'
    obtain ⟨s, hs, hps⟩ := mem_sum_range.1 hp
    obtain ⟨-, hlt⟩ := Multiset.mem_Ico.1 hps
    obtain ⟨hge, -⟩ := Multiset.mem_Ico.1 hp'
    have hnext := h s (by omega)
    have hmul : (s + 1) * 2 ^ 40 ≤ n * 2 ^ 40 := Nat.mul_le_mul_right _ hs
    omega

/-- Blocks taken out take their cells along. -/
theorem heldCells_takeBlocks (ids : List Nat) : ∀ blocks : SortedMap Nat Block,
    heldCells blocks = cellsOf (takeBlocks ids blocks).1 + heldCells (takeBlocks ids blocks).2 := by
  induction ids with
  | nil => intro blocks; exact (zero_add _).symm
  | cons id ids ih =>
    intro blocks
    unfold takeBlocks
    cases hf : blocks.find id with
    | none => exact ih blocks
    | some b =>
      rw [cellsOf_append, add_assoc, ← ih (blocks.erase id)]
      exact blocks.sum_erase_add _ hf

theorem find_takeBlocks (ids : List Nat) :
    ∀ (blocks : SortedMap Nat Block) (k : Nat), (takeBlocks ids blocks).2.find k
        = if k ∈ ids then none else blocks.find k := by
  induction ids with
  | nil => simp [takeBlocks]
  | cons id ids ih =>
    intro blocks k
    unfold takeBlocks
    cases hf : blocks.find id with
    | none =>
      rw [ih blocks k]
      by_cases hk : k = id
      · subst hk
        rw [hf]
        simp
      · simp [hk]
    | some b =>
      rw [ih (blocks.erase id) k, SortedMap.find_erase]
      by_cases hk : k = id <;> simp [hk]

theorem mem_takeBlocks {ids : List Nat} : ∀ {blocks : SortedMap Nat Block} {sp : Span},
      sp ∈ (takeBlocks ids blocks).1 → ∃ id b, blocks.find id = some b ∧ sp ∈ b.spans := by
  induction ids with
  | nil => intro blocks sp h; cases h
  | cons id ids ih =>
    intro blocks sp h
    unfold takeBlocks at h
    cases hf : blocks.find id with rw [hf] at h
    | none => exact ih h
    | some b =>
      rcases mem_append.1 h with h | h
      · exact ⟨id, b, hf, h⟩
      · obtain ⟨id', b', hb, hsp⟩ := ih h
        exact ⟨id', b', (SortedMap.find_erase_cases hb).2, hsp⟩

/-- A nonempty part of a span, with its tag. -/
structure SubSpan (sp sp₀ : Span) : Prop where
  lower : sp₀.start ≤ sp.start
  nonempty : sp.start < sp.stop
  upper : sp.stop ≤ sp₀.stop
  redo : sp.redo = sp₀.redo

theorem SubSpan.refl (h : sp.start < sp.stop) : SubSpan sp sp := ⟨le_rfl, h, le_rfl, rfl⟩

section

variable {a : Span} {b : Span} (h : SubSpan a b)
include h

theorem SubSpan.trans {c : Span} (h' : SubSpan b c) : SubSpan a c :=
  ⟨h'.lower.trans h.lower, h.nonempty, h.upper.trans h'.upper, h.redo.trans h'.redo⟩

theorem SubSpan.proper (hb : Proper b) : Proper a := ⟨h.nonempty, lt_of_le_of_lt h.upper hb.2⟩

theorem SubSpan.inStream {s n : Nat} (hb : InStream s n b) : InStream s n a :=
  ⟨hb.lower.trans h.lower, h.nonempty, h.upper.trans hb.upper⟩

end

/-- What draining one queue leaves and takes. -/
structure QueueDrained (need : Nat) (queue : List Span)
    (r : List Span × List Span × Nat) : Prop where
  cells : cellsOf queue = cellsOf r.1 + cellsOf r.2.1
  count : (cellsOf r.1).card + r.2.2 = need
  /-- Need is left only when the queue is empty. -/
  empty : r.2.2 ≠ 0 → r.2.1 = []
  taken : ∀ sp ∈ r.1, ∃ sp₀ ∈ queue, SubSpan sp sp₀
  rest : ∀ sp ∈ r.2.1, ∃ sp₀ ∈ queue, SubSpan sp sp₀

theorem drainQueue_spec {queue : List Span} : ∀ need, (∀ sp ∈ queue, Proper sp) →
      QueueDrained need queue (drainQueue need queue) := by
  induction queue with
  | nil =>
    intro need _
    exact ⟨rfl, Nat.zero_add _, fun _ => rfl, forall_mem_nil _, forall_mem_nil _⟩
  | cons front queue ih =>
    intro need h
    obtain ⟨hfront, hqueue⟩ := forall_mem_cons.1 h
    have hself : ∀ sp ∈ front :: queue, ∃ sp₀ ∈ front :: queue,
        SubSpan sp sp₀ := fun sp hsp => ⟨sp, hsp, .refl (h sp hsp).1⟩
    unfold drainQueue
    split
    · next hneed =>
      exact ⟨(zero_add _).symm, Nat.zero_add _, fun hn => absurd hneed hn, forall_mem_nil _, hself⟩
    · next hneed =>
      split
      · next hle =>
        -- the whole front is taken, and the loop goes on behind it
        obtain ⟨hc, hn, he, ht, hr⟩ := ih (need - front.len) hqueue
        refine ⟨?_, ?_, he, ?_, ?_⟩
        · rw [cellsOf_cons, cellsOf_cons, hc, add_assoc]
        · dsimp only
          rw [cellsOf_cons, Multiset.card_add, card_cells hfront]
          omega
        · intro sp hsp
          rcases mem_cons.1 hsp with rfl | hsp
          · exact ⟨sp, mem_cons_self .., .refl hfront.1⟩
          · obtain ⟨sp₀, hmem, hsub⟩ := ht sp hsp
            exact ⟨sp₀, mem_cons_of_mem _ hmem, hsub⟩
        · intro sp hsp
          obtain ⟨sp₀, hmem, hsub⟩ := hr sp hsp
          exact ⟨sp₀, mem_cons_of_mem _ hmem, hsub⟩
      · next hgt =>
        -- the front is longer than the need: it is split at the need
        rw [len_of_proper hfront] at hgt
        have hcut : wadd front.start need = front.start + need := by
          have := hfront.2
          exact Nat.mod_eq_of_lt (by omega)
        rw [hcut]
        refine ⟨?_, ?_, fun hn => absurd rfl hn, ?_, ?_⟩
        · rw [cellsOf_cons, cellsOf_cons, cellsOf_cons, cellsOf_nil, add_zero, ← add_assoc]
          congr 1
          exact tagged_split (m := front.start + need) _ (by omega) (by omega)
        · rw [cellsOf_cons, cellsOf_nil, add_zero, add_zero]
          exact (card_tagged _ _ _).trans (Nat.add_sub_cancel_left ..)
        · intro sp hsp
          rw [mem_singleton] at hsp
          subst hsp
          exact ⟨front, mem_cons_self .., le_rfl, by dsimp only; omega, by dsimp only; omega, rfl⟩
        · intro sp hsp
          rcases mem_cons.1 hsp with rfl | hsp
          · exact ⟨front, mem_cons_self .., Nat.le_add_right _ _, by dsimp only; omega, le_rfl, rfl⟩
          · exact hself sp (mem_cons_of_mem _ hsp)

/-- The same for all accepted streams. -/
structure Drained (accept : List Nat) (need : Nat) (streams : List StreamState)
    (r : List Span × List StreamState × Nat) : Prop where
  length : r.2.1.length = streams.length
  next : ∀ s, (r.2.1.getD s .default).next = (streams.getD s .default).next
    ∧ (r.2.1.getD s .default).passesStarted = (streams.getD s .default).passesStarted
  cells : queueCells streams = cellsOf r.1 + queueCells r.2.1
  count : (cellsOf r.1).card + r.2.2 = need
  empty : r.2.2 ≠ 0 → ∀ s ∈ accept, (r.2.1.getD s .default).queue = []
  other : ∀ s, s ∉ accept → (r.2.1.getD s .default).queue = (streams.getD s .default).queue
  taken : ∀ sp ∈ r.1, ∃ s ∈ accept, ∃ sp₀ ∈ (streams.getD s .default).queue, SubSpan sp sp₀
  rest : ∀ s, ∀ sp ∈ (r.2.1.getD s .default).queue,
    ∃ sp₀ ∈ (streams.getD s .default).queue, SubSpan sp sp₀

def QueuesProper (streams : List StreamState) : Prop :=
  ∀ s, ∀ sp ∈ (streams.getD s .default).queue, Proper sp

theorem QueuesProper.of_rest {streams streams' : List StreamState} (h : QueuesProper streams)
    (hr : ∀ s, ∀ sp ∈ (streams'.getD s .default).queue,
      ∃ sp₀ ∈ (streams.getD s .default).queue, SubSpan sp sp₀) : QueuesProper streams' := by
  intro s sp hsp
  obtain ⟨sp₀, hmem, hsub⟩ := hr s sp hsp
  exact hsub.proper (h s sp₀ hmem)

theorem drainStreams_next (accept : List Nat) : ∀ (need : Nat) (streams : List StreamState),
      (drainStreams accept need streams).2.1.length = streams.length
        ∧ ∀ s, ((drainStreams accept need streams).2.1.getD s .default).next
            = (streams.getD s .default).next ∧ ((drainStreams accept need streams).2.1.getD s
              .default).passesStarted = (streams.getD s .default).passesStarted := by
  induction accept with
  | nil => intro need streams; exact ⟨rfl, fun s => ⟨rfl, rfl⟩⟩
  | cons t accept ih =>
    intro need streams
    have hone : ∀ (q : List Span) (s : Nat),
        ((streams.modify t fun st => { st with queue := q }).getD s
            .default).next = (streams.getD s .default).next
          ∧ ((streams.modify t fun st => { st with queue := q }).getD s .default).passesStarted
            = (streams.getD s .default).passesStarted := by
      intro q s
      refine ⟨getD_modify_of_eq StreamState.next ?_ ..,
        getD_modify_of_eq StreamState.passesStarted ?_ ..⟩ <;> exact fun _ => rfl
    dsimp only [drainStreams]
    split
    · exact ⟨length_modify _ _ _, hone _⟩
    obtain ⟨i1, i2⟩ := ih (drainQueue need (streams.getD t .default).queue).2.2
      (streams.modify t fun st => { st with queue :=
        (drainQueue need (streams.getD t .default).queue).2.1 })
    refine ⟨i1.trans (length_modify _ _ _), fun s => ?_⟩
    exact ⟨(i2 s).1.trans (hone _ s).1, (i2 s).2.trans (hone _ s).2⟩

theorem drainStreams_spec (accept : List Nat) : ∀ (need : Nat) (streams : List StreamState),
      (∀ s ∈ accept, s < streams.length) → QueuesProper streams →
      Drained accept need streams (drainStreams accept need streams) := by
  induction accept with
  | nil =>
    intro need streams _ hq
    exact ⟨rfl, fun s => ⟨rfl, rfl⟩, (zero_add _).symm, Nat.zero_add _,
      fun _ s hs => (not_mem_nil hs).elim, fun _ _ => rfl, forall_mem_nil _,
      fun s sp hsp => ⟨sp, hsp, .refl (hq s sp hsp).1⟩⟩
  | cons s accept ih =>
    intro need streams hacc hq
    obtain ⟨hs, hacc'⟩ := forall_mem_cons.1 hacc
    have hd := drainQueue_spec need (hq s)
    generalize hr : drainQueue need (streams.getD s .default).queue = r at hd
    obtain ⟨qc, qn, qe, qt, qr⟩ := hd
    -- the streams after this stream's queue was drained
    generalize hst : streams.modify s (fun st => { st with queue := r.2.1 }) = streams'
    have hlen : streams'.length = streams.length := by rw [← hst, length_modify]
    have hget : ∀ i, streams'.getD i .default
        = if i = s then { streams.getD s .default with queue := r.2.1 }
          else streams.getD i .default := by
      intro i
      rw [← hst, getD_modify _ _ _ _ hs]
    have hcells : queueCells streams = cellsOf r.1 + queueCells streams' := by
      unfold queueCells
      rw [hlen]
      refine sum_range_add hs ?_ ?_
      · intro i hi
        rw [hget, if_neg hi]
      · rw [hget, if_pos rfl]
        exact qc
    have hrest : ∀ i, ∀ sp ∈ (streams'.getD i .default).queue,
        ∃ sp₀ ∈ (streams.getD i .default).queue, SubSpan sp sp₀ := by
      intro i sp hsp
      rw [hget] at hsp
      split at hsp
      · next he => rw [he]; exact qr sp hsp
      · exact ⟨sp, hsp, .refl (hq i sp hsp).1⟩
    have htaken : ∀ sp ∈ r.1, ∃ i ∈ s :: accept,
        ∃ sp₀ ∈ (streams.getD i .default).queue, SubSpan sp sp₀ :=
      fun sp hsp => ⟨s, mem_cons_self .., qt sp hsp⟩
    obtain ⟨hlength, hnext⟩ := drainStreams_next (s :: accept) need streams
    generalize hout : drainStreams (s :: accept) need streams = out at hlength hnext ⊢
    unfold drainStreams at hout
    rw [hr] at hout
    dsimp only at hout
    rw [hst] at hout
    split at hout
    · next hzero =>
      subst hout
      refine ⟨hlength, hnext, hcells, ?_, fun hn => absurd rfl hn, ?_, htaken, hrest⟩
      · rw [hzero] at qn
        exact qn
      · intro i hi
        have hne : i ≠ s := fun he => hi (he ▸ mem_cons_self ..)
        rw [hget, if_neg hne]
    · next hleft =>
      subst hout
      obtain ⟨-, -, ic, icn, ie, io, it, ir⟩ := ih r.2.2 streams'
        (fun i hi => by rw [hlen]; exact hacc' i hi) (hq.of_rest hrest)
      refine ⟨hlength, hnext, ?_, ?_, ?_, ?_, ?_, ?_⟩
      · rw [hcells, ic, cellsOf_append, add_assoc]
      · dsimp only
        rw [cellsOf_append, Multiset.card_add]
        omega
      · intro hn i hi
        rcases mem_cons.1 hi with rfl | hi
        · -- this stream's queue was emptied before, and stays empty
          rw [eq_nil_iff_forall_not_mem]
          intro sp hsp
          obtain ⟨sp₀, hmem, -⟩ := ir i sp hsp
          rw [hget, if_pos rfl] at hmem
          have : sp₀ ∈ r.2.1 := hmem
          rw [qe hleft] at this
          cases this
        · exact ie hn i hi
      · intro i hi
        obtain ⟨hne, hi'⟩ := not_or.1 (fun h => hi (mem_cons.2 h))
        rw [io i hi', hget, if_neg hne]
      · intro sp hsp
        rcases mem_append.1 hsp with hsp | hsp
        · exact htaken sp hsp
        · obtain ⟨i, hi, sp₀, hmem, hsub⟩ := it sp hsp
          obtain ⟨sp₁, hmem', hsub'⟩ := hrest i sp₀ hmem
          exact ⟨i, mem_cons_of_mem _ hi, sp₁, hmem', hsub.trans hsub'⟩
      · intro i sp hsp
        obtain ⟨sp₀, hmem, hsub⟩ := ir i sp hsp
        obtain ⟨sp₁, hmem', hsub'⟩ := hrest i sp₀ hmem
        exact ⟨sp₁, hmem', hsub.trans hsub'⟩

end Yeto.Dispense
