/-
The record of a dispenser and what comes back from it (`RoundTrips`).

`encode_persisted` writes the number of spans with `queue.len() as u32`. From
`2 ^ 32` spans on the record is refused; this is the only way the round trip
fails, a block counter past its 64 bits apart (`roundTrips_iff`).
-/
import Yeto.Dispense.Proofs.Runs
import Yeto.Dispense.Proofs.Solo

namespace Yeto.Dispense

open Lib Dispenser List Members Ledger

variable {n s : Nat} {sp : Span}

def spanCount (d : Dispenser) : Nat := (d.blocks.values.flatMap Block.spans).length
    + (d.streams.flatMap (·.queue)).length

section Lists

variable {α : Type}

theorem perm_groups (key : α → Nat) : ∀ l : List α, (∀ x ∈ l, key x < n) →
    ((range n).flatMap fun s => l.filter fun x => decide (key x = s)).Perm l := by
  induction n with intro l hl
  | zero =>
    cases l with
    | nil => exact List.Perm.refl _
    | cons x l => exact absurd (hl x mem_cons_self) (Nat.not_lt_zero _)
  | succ n ih =>
    rw [range_succ, flatMap_append, flatMap_singleton]
    have hlow := ih (l.filter fun x => decide (key x < n)) fun x hx =>
      of_decide_eq_true (mem_filter.1 hx).2
    have hsame : ((range n).flatMap fun s =>
          (l.filter fun x => decide (key x < n)).filter fun x => decide (key x = s))
        = (range n).flatMap fun s =>
            l.filter fun x => decide (key x = s) := by
      refine flatMap_congr fun s hs => ?_
      rw [filter_filter]
      refine filter_congr fun x _ => ?_
      have := mem_range.1 hs
      by_cases hx : key x = s
      · simp [hx, this]
      · simp [hx]
    have hhigh : (l.filter fun x => decide (key x = n))
        = l.filter fun x => !decide (key x < n) := by
      refine filter_congr fun x hx => ?_
      have := hl x hx
      by_cases hxn : key x = n
      · simp [hxn]
      · have hlt : key x < n := by omega
        simp [hxn, hlt]
    rw [← hsame, hhigh]
    exact (hlow.append_right _).trans (filter_append_perm _ l)

theorem filter_groups {key : α → Nat} {f : Nat → List α}
    (hf : ∀ s, ∀ x ∈ f s, key x = s) (n s : Nat) :
    ((range n).flatMap f).filter (fun x => decide (key x = s)) = if s < n then f s else [] := by
  induction n with
  | zero => rfl
  | succ n ih =>
    rw [range_succ, flatMap_append, filter_append, ih, flatMap_singleton]
    by_cases hs : s = n
    · subst hs
      rw [if_neg (lt_irrefl s), if_pos (Nat.lt_succ_self s), nil_append]
      exact filter_eq_self.2 fun x hx => decide_eq_true (hf s x hx)
    · have hnone : (f n).filter (fun x => decide (key x = s)) = [] := by
        refine filter_eq_nil_iff.2 fun x hx => ?_
        rw [hf n x hx]
        simpa using fun h : n = s => hs h.symm
      rw [hnone, append_nil]
      by_cases hlt : s < n
      · rw [if_pos hlt, if_pos (Nat.lt_succ_of_lt hlt)]
      · rw [if_neg hlt, if_neg (by omega)]

end Lists

def recordChunk (d : Dispenser) (s : Nat) : List Span :=
  (d.heldSpans.filter fun sp => decide (streamOf sp.start = s)) ++ (d.stream s).queue

section Record

variable {d : Dispenser} {log : List DispenseEvent}

theorem streams_eq_map (d : Dispenser) : d.streams = (range d.streams.length).map d.stream := by
  refine ext_getElem (by simp) fun i h1 h2 => ?_
  rw [getElem_map, getElem_range]
  exact (getD_eq_getElem _ _ h1).symm

theorem streamOf_held (hc : Conserved d log) (hb : Books d) (hsp : sp ∈ d.heldSpans) :
    streamOf sp.start < d.streams.length := by
  obtain ⟨id, b, hf, hmem⟩ := mem_heldSpans.1 hsp
  obtain ⟨s, hs, hi⟩ := hc.held id b hf sp hmem
  rw [hi.streamOf_eq (hb.next s hs)]
  exact hs

theorem stream_of_le (h : d.streams.length ≤ s) : d.stream s = .default := by
  exact getD_eq_default _ _ h

theorem streamOf_chunk (hc : Conserved d log) (hb : Books d) (s : Nat)
    (hsp : sp ∈ recordChunk d s) : streamOf sp.start = s := by
  rcases mem_append.1 hsp with hheld | hq
  · exact of_decide_eq_true (mem_filter.1 hheld).2
  · by_cases hs : s < d.streams.length
    · exact (hc.queues s sp hq).streamOf_eq (hb.next s hs)
    · rw [stream_of_le (not_lt.1 hs)] at hq
      cases hq

theorem filter_recordQueue (hc : Conserved d log) (hb : Books d) (hs : s < d.streams.length) :
    d.recordQueue.filter (fun sp => decide (streamOf sp.start = s)) = recordChunk d s := by
  rw [recordQueue_eq]
  refine (filter_groups (f := recordChunk d) ?_ _ s).trans (if_pos hs)
  intro s sp hsp
  exact streamOf_chunk hc hb s hsp

theorem length_recordQueue (hc : Conserved d log) (hb : Books d) :
    d.recordQueue.length = spanCount d := by
  have hperm := flatMap_append_perm (range d.streams.length)
    (fun s => d.heldSpans.filter fun sp => decide (streamOf sp.start = s))
    (fun s => (d.stream s).queue)
  have hheld := (perm_groups (fun sp : Span => streamOf sp.start) d.heldSpans
    fun sp hsp => streamOf_held hc hb hsp).length_eq
  have hqueue : ((range d.streams.length).flatMap
      fun s => (d.stream s).queue) = d.streams.flatMap (·.queue) := by
    conv_rhs => rw [streams_eq_map d]
    rw [flatMap_map]
  rw [recordQueue_eq, ← hperm.length_eq, length_append, hheld, hqueue]
  unfold spanCount Dispenser.heldSpans
  rw [sortSpans_perm.length_eq]

theorem ascending_of_nodup
    {l : List Span} : (items (cellsOf l)).Nodup → (∀ sp ∈ l, sp.start < sp.stop) →
    l.Pairwise (fun a b => a.start ≤ b.start) → l.Pairwise fun a b => a.stop ≤ b.start := by
  induction l with
  | nil => intro _ _ _; exact List.Pairwise.nil
  | cons a l ih =>
    intro hnd hne hsort
    obtain ⟨ha, hl⟩ := pairwise_cons.1 hsort
    rw [cellsOf_cons, items_add, Multiset.nodup_add] at hnd
    obtain ⟨-, hnd, hdis⟩ := hnd
    refine pairwise_cons.2 ⟨fun b hb => ?_,
      ih hnd (fun sp hsp => hne sp (mem_cons_of_mem _ hsp)) hl⟩
    by_contra hlt
    -- the first position of the later span would be in both
    have hin : b.start ∈ items a.cells := by
      rw [items_cells, Multiset.mem_Ico]
      exact ⟨ha b hb, not_le.1 hlt⟩
    have hin' : b.start ∈ items (cellsOf l) :=
      mem_items.2 ⟨b.redo, mem_cellsOf.2 ⟨b, hb, mem_cells.2
        ⟨le_rfl, hne b (mem_cons_of_mem _ hb), rfl⟩⟩⟩
    exact Multiset.disjoint_left.1 hdis hin hin'

theorem heldSpans_ascending (hc : Conserved d log) :
    d.heldSpans.Pairwise fun a b => a.stop ≤ b.start := by
  refine ascending_of_nodup ?_ ?_ ?_
  · rw [cellsOf_heldSpans]
    exact (Multiset.nodup_add.1 hc.ledger.nodup_active).2.1
  · intro sp hsp
    obtain ⟨id, b, hf, hmem⟩ := mem_heldSpans.1 hsp
    obtain ⟨s, -, hi⟩ := hc.held id b hf sp hmem
    exact hi.nonempty
  · exact pairwise_insertionSort _ _

end Record

section Again

variable {cfg : DispenseConfig} {lease : Nat} {d d' : Dispenser}
  {log : List DispenseEvent} {holders : List Holder}

theorem flatMap_encodeStream {decls : List StreamDecl} {l l' : List StreamState}
    (h : l'.map (fun st => (st.next, st.passesStarted))
      = l.map fun st => (st.next, st.passesStarted)) :
    (decls.zip l').flatMap encodeStream = (decls.zip l).flatMap encodeStream := by
  have hread : ∀ k : List StreamState, (decls.zip k).flatMap encodeStream
      = (decls.zip (k.map fun st => (st.next, st.passesStarted))).flatMap
        fun e => encodeStream (e.1, ⟨e.2.1, [], e.2.2⟩) := by
    intro k
    rw [zip_map_right, flatMap_map]
    rfl
  rw [hread, hread, h]

theorem encodeTotals_words {t : Totals} : encodeTotals t.words = encodeTotals t := by
  have hle : ∀ v, le 8 (v % 2 ^ 64) = le 8 v := le_mod 8
  unfold encodeTotals Totals.words
  simp only [hle]

section

variable (h : Restored cfg lease d d.recordQueue holders d')
include h

theorem Restored.counters : d'.streams.map (fun st => (st.next, st.passesStarted))
      = d.streams.map fun st => (st.next, st.passesStarted) := by
  rw [streams_eq_map d', streams_eq_map d, h.length, map_map, map_map]
  refine map_congr_left fun s _ => ?_
  show ((d'.stream s).next, (d'.stream s).passesStarted) = _
  rw [(h.stream s).1, (h.stream s).2]
  rfl

theorem Restored.heldSpans : d'.heldSpans = [] := by
  unfold Dispenser.heldSpans
  rw [h.blocks]
  rfl

theorem Restored.recordQueue (hc : Conserved d log) (hb : Books d) :
    d'.recordQueue = d.recordQueue := by
  rw [recordQueue_eq d', recordQueue_eq d, h.length, h.heldSpans]
  refine flatMap_congr fun s hs => ?_
  rw [h.queue_eq hc hb, filter_recordQueue hc hb (mem_range.1 hs)]
  rfl

end

theorem Restored.encode (h : Restored cfg lease d d.recordQueue d.members.fenceList d')
    (hc : Conserved d log) (hb : Books d) (hnext : d.nextBlock < 2 ^ 64) :
    d'.encodePersisted = d.encodePersisted := by
  have hblock : d'.nextBlock = d.nextBlock := by
    rw [h.nextBlock, Nat.mod_eq_of_lt hnext]
    exact max_eq_left hb.first
  have hfence : d'.members.fenceList = d.members.fenceList := by
    rw [h.members]
    exact (fenceList_retireAll lease (nodup_fenceList hb.members) (length_fenceList _)).2
  have htotals : encodeTotals d'.recordTotals = encodeTotals d.recordTotals := by
    have hwords : d'.recordTotals.words = d.recordTotals.words := by
      unfold recordTotals
      rw [h.heldSpans, h.totals]
      unfold Totals.words recordTotals wadd
      simp [lenSum]
    rw [← encodeTotals_words, hwords, encodeTotals_words]
  dsimp only [encodePersisted]
  rw [h.recordQueue hc hb, hfence, h.data, hblock, htotals, flatMap_encodeStream h.counters]

end Again

structure RoundTrip (d d' : Dispenser) : Prop where
  /-- The restored dispenser has the same record. -/
  bytes : d'.encodePersisted = d.encodePersisted
  /-- The queued positions, with their redo counts, are the queued and the
  held ones. -/
  cells : queueCells d'.streams = heldCells d.blocks + queueCells d.streams
  unheld : d'.blocks = .empty
  /-- Each queue begins with the held positions of its stream, ascending. -/
  front : ∀ s < d.streams.length, ∃ held : List Span,
    (d'.stream s).queue = held ++ (d.stream s).queue ∧ held.Pairwise (fun a b => a.stop ≤ b.start)
      ∧ ∀ sp, sp ∈ held ↔ streamOf sp.start = s ∧ ∃ id b, d.blocks.find id = some b ∧ sp ∈ b.spans
  length : d'.streams.length = d.streams.length
  counters : ∀ s, (d'.stream s).next = (d.stream s).next
    ∧ (d'.stream s).passesStarted = (d.stream s).passesStarted
  nextBlock : d'.nextBlock = d.nextBlock
  /-- Every member the table knew is fenced, if it knew at most
  `RETIRED_LIMIT`. -/
  fenced : d.members.retiredOrder.length + d.members.lastSeen.size ≤ retiredLimit →
    ∀ h, d.members.isLive h = true ∨ d.members.isRetired h = true → d'.members.isRetired h = true

/-- The record of `d` restores into a fresh dispenser on a fresh table. -/
def RoundTrips (cfg : DispenseConfig) (lease : Nat) (d : Dispenser) : Prop :=
  ∃ d', (Dispenser.withMembers cfg (Members.new lease)).restorePersisted
    d.encodePersisted = .ok d' ∧ RoundTrip d d'

section Trip

variable {cfg : DispenseConfig} {lease : Nat} {d d' : Dispenser} {log : List DispenseEvent}

theorem Restored.roundTrip (h : Restored cfg lease d d.recordQueue d.members.fenceList d')
    (hc : Conserved d log) (hb : Books d) (hnext : d.nextBlock < 2 ^ 64) : RoundTrip d d' := by
  refine ⟨h.encode hc hb hnext, h.cells_eq hc hb, h.blocks, ?_, h.length, h.stream, ?_, ?_⟩
  · intro s hs
    refine ⟨d.heldSpans.filter fun sp => decide (streamOf sp.start = s), ?_,
      (heldSpans_ascending hc).filter _, fun sp => ?_⟩
    · rw [h.queue_eq hc hb, filter_recordQueue hc hb hs]
      rfl
    · rw [mem_filter, mem_heldSpans, decide_eq_true_iff]
      exact And.comm
  · rw [h.nextBlock, Nat.mod_eq_of_lt hnext]
    exact max_eq_left hb.first
  · intro hsize x hx
    have hok : d'.members.Ok := (h.books hb).members
    rw [hok.isRetired_iff, h.members, (fenceList_retireAll lease
      (nodup_fenceList hb.members) (length_fenceList _)).1]
    exact mem_fenceList hb.members hsize hx

theorem roundTrips_iff (cfg : DispenseConfig) (hc : Conserved d log) (hb : Books d) :
    RoundTrips cfg lease d ↔ spanCount d < 2 ^ 32 ∧ d.nextBlock < 2 ^ 64 := by
  have hq := hc.queueWords hb
  rw [← length_recordQueue hc hb]
  constructor
  · rintro ⟨d', hd', ht⟩
    constructor
    · by_contra hlen
      exact restore_long cfg hb hq (not_lt.1 hlen) d' hd'
    · obtain ⟨queue, holders, hres, -⟩ := restore_inv hb hd'
      have hmod : d.nextBlock % 2 ^ 64 < 2 ^ 64 := Nat.mod_lt _ (by decide)
      have hone : max (d.nextBlock % 2 ^ 64) 1 < 2 ^ 64 := max_lt hmod (by decide)
      rw [← ht.nextBlock, hres.nextBlock]
      exact hone
  · rintro ⟨hlen, hnext⟩
    obtain ⟨d', hd', hres⟩ := restore_ok cfg hb hq hlen fun sp hsp => spanOk_recordQueue hc hb hsp
    exact ⟨d', hd', hres.roundTrip hc hb hnext⟩

end Trip

section Runs

variable {cfg : DispenseConfig} {lease : Nat} {w : World}

/-- The record of every reachable state round-trips, as long as it counts
its spans in 32 bits and its blocks in 64. -/
theorem record_round_trips (hr : (runs cfg lease).Reachable w)
    (hroom : ∀ s < w.disp.streams.length, (w.disp.stream s).next < 2 ^ 40)
    (cfg' : DispenseConfig) (lease' : Nat) : RoundTrips cfg' lease' w.disp
      ↔ spanCount w.disp < 2 ^ 32 ∧ w.disp.nextBlock < 2 ^ 64 := by
  have hok := worldOk_reachable hr
  exact roundTrips_iff cfg' (hok.conserved fun s hs => .inl (hroom s hs)) hok.books

end Runs

theorem record_round_trips_sample : RoundTrips sampleConfig 10 sampleWorld.disp :=
  (record_round_trips (reachable_after (reachable_start sampleConfig 10) sampleOps)
    (by decide +kernel) sampleConfig 10).2 ⟨by decide +kernel, by decide +kernel⟩

def longConfig : DispenseConfig := ⟨10, none, 1, 1⟩

def longData : DataDecl := ⟨[⟨1, 1, "a"⟩], zeroFingerprint⟩

def longStart : World := (startWorld longConfig 10).after [.openWith ⟨0, 7⟩ longData none 0]

def longWorld (n : Nat) : World := longStart.after (claims ⟨0, 7⟩ 0 1 0 n)

theorem longStart_solo : Solo ⟨0, 7⟩ 0 0 longStart.disp := by
  have hok := worldOk_reachable (reachable_after (reachable_start longConfig 10)
      [.openWith ⟨0, 7⟩ longData none 0])
  refine ⟨hok.books, ⟨by decide +kernel, by decide +kernel⟩,
    ⟨⟨.empty, false, none, [0]⟩, rfl, rfl, fun n a hlast => ?_⟩, by decide +kernel⟩
  cases hlast

theorem longWorld_took (hn : n ≤ 2 ^ 40) : Solo ⟨0, 7⟩ 0 n (longWorld n).disp
      ∧ Took ⟨0, 7⟩ 0 n 1 longStart.disp (longWorld n).disp := by
  have hnext : (longStart.disp.stream 0).next = 0 := by decide +kernel
  have hlimit : longStart.disp.limit 0 = 2 ^ 40 := by decide +kernel
  have hrun := solo_claims longStart_solo 1 0 n (by decide +kernel) (by omega)
  rw [Nat.zero_add] at hrun
  exact hrun

theorem spanCount_eq_sum {d : Dispenser} : spanCount d = (d.blocks.sum fun _ b => b.spans.length)
      + (d.streams.flatMap (·.queue)).length := by
  unfold spanCount SortedMap.values SortedMap.sum
  rw [length_flatMap, map_map]
  rfl

theorem longWorld_spans (n : Nat) (hn : n ≤ 2 ^ 40) : spanCount (longWorld n).disp = n := by
  obtain ⟨hsolo, htook⟩ := longWorld_took hn
  have hlen : (longWorld n).disp.streams.length = 1 := htook.length.trans (by decide +kernel)
  have hnone : (longStart.disp.blocks.sum fun _ b => b.spans.length) = 0 := by decide +kernel
  have hqueue : (longWorld n).disp.streams.flatMap (·.queue) = [] := by
    rw [streams_eq_map, hlen, flatMap_map]
    show ((longWorld n).disp.stream 0).queue ++ [] = []
    rw [hsolo.queue]
    rfl
  rw [spanCount_eq_sum, htook.spans, hqueue, hnone, Nat.zero_add]
  rfl

theorem longWorld_room (n : Nat) (hn : n < 2 ^ 40) : ∀ s < (longWorld n).disp.streams.length,
      ((longWorld n).disp.stream s).next < 2 ^ 40 := by
  obtain ⟨-, htook⟩ := longWorld_took (le_of_lt hn)
  have hlen : (longWorld n).disp.streams.length = 1 := htook.length.trans (by decide +kernel)
  have hnext : (longStart.disp.stream 0).next = 0 := by decide +kernel
  intro s hs
  obtain rfl : s = 0 := by omega
  rw [htook.next, hnext]
  omega

theorem reachable_longWorld (n : Nat) : (runs longConfig 10).Reachable (longWorld n) :=
  reachable_after (reachable_after (reachable_start longConfig 10) _) _

/-- After `2 ^ 32` claims of one position each the record is refused. -/
theorem long_record_lost : (runs longConfig 10).Reachable (longWorld (2 ^ 32))
      ∧ (∀ s < (longWorld (2 ^ 32)).disp.streams.length,
        ((longWorld (2 ^ 32)).disp.stream s).next < 2 ^ 40)
      ∧ ¬ RoundTrips longConfig 10 (longWorld (2 ^ 32)).disp := by
  have hroom := longWorld_room (2 ^ 32) (by decide)
  refine ⟨reachable_longWorld _, hroom, fun htrip => ?_⟩
  have hok := worldOk_reachable (reachable_longWorld (2 ^ 32))
  have hsmall := ((roundTrips_iff longConfig
    (hok.conserved fun s hs => .inl (hroom s hs)) hok.books).1 htrip).1
  rw [longWorld_spans (2 ^ 32) (by decide)] at hsmall
  exact absurd hsmall (lt_irrefl _)

end Yeto.Dispense
