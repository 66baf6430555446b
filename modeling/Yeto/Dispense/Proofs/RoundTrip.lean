/-
A record read back. `read_encode` reads every field back except the two counted
lists at the end, whose counts are `u32`. With fewer than `2 ^ 32` spans the
lists are read back (`read_tail`); with more, the record ends in trailing bytes
and the restore FAILS (`read_tail_long`).
-/
import Yeto.Dispense.Proofs.Conserve

namespace Yeto.Dispense

open Lib Dispenser List Bounded Reader Reads Members Record Lib.Reader

variable {sp : Span}

theorem reads_span {s : Span} (h1 : s.start < 2 ^ 64) (h2 : s.stop < 2 ^ 64)
    (h3 : s.redo < 2 ^ 32) : Reads span (encodeSpan s) s := by
  refine Reads.bind (word _ h1) ?_
  refine Reads.bind (word _ h2) ?_
  exact bind_end (word _ h3) (Reads.pure _)

theorem reads_holder (h : Holder) : Reads holder (encodeHolder h) h := by
  refine Reads.bind (word _ h.learnerId.isLt) ?_
  refine bind_end (word _ h.incarnation.isLt) ?_
  have heq : (⟨Fin.ofNat _ h.learnerId.val, Fin.ofNat _ h.incarnation.val⟩ : Holder) = h := by
    cases h
    simp
  rw [heq]
  exact Reads.pure _

theorem reads_fingerprint (fp : Fingerprint) : Reads fingerprint fp.1 fp := by
  refine bind_end (Reads.take _ fp.2) ?_
  have heq : (⟨(fp.1 ++ replicate 32 0).take 32, by simp⟩ : Fingerprint) = fp := by
    apply Subtype.ext
    exact take_left' fp.2
  rw [heq]
  exact Reads.pure _

def Totals.words (t : Totals) : Totals :=
  ⟨t.granted % 2 ^ 64, t.trained % 2 ^ 64, t.dropped % 2 ^ 64,
    t.requeued % 2 ^ 64, t.exhausted % 2 ^ 64, t.released % 2 ^ 64, t.reclaimed % 2 ^ 64⟩

theorem reads_totals (t : Totals) : Reads totals (encodeTotals t) t.words := by
  refine Reads.bind (word_mod _ 8 t.granted) ?_
  refine Reads.bind (word_mod _ 8 t.trained) ?_
  refine Reads.bind (word_mod _ 8 t.dropped) ?_
  refine Reads.bind (word_mod _ 8 t.requeued) ?_
  refine Reads.bind (word_mod _ 8 t.exhausted) ?_
  refine Reads.bind (word_mod _ 8 t.released) ?_
  exact bind_end (word_mod _ 8 t.reclaimed) (Reads.pure _)

theorem reads_name (s : String) : Reads (name s.utf8ByteSize) s.toByteArray.data.toList s := by
  refine bind_end (Reads.take _ ?_) (ofExcept ?_)
  · rfl
  · have hutf : String.fromUTF8? ⟨s.toByteArray.data.toList.toArray⟩ = some s := by
      unfold String.fromUTF8?
      rw [dif_pos s.isValidUTF8]
      rfl
    rw [hutf]

def streamEntry (e : StreamDecl × StreamState) : StreamDecl × (Nat × Nat) :=
  (e.1, (e.2.next, e.2.passesStarted))

theorem reads_stream {e : StreamDecl × StreamState} (hv : e.1.Valid) (hn : e.2.next ≤ 2 ^ 40)
    (hp : e.2.passesStarted ≤ 2 ^ 40) : Reads stream (encodeStream e) (streamEntry e) := by
  have hrows := hv.rows_lt
  have hweight := hv.weight_le
  have hname := hv.name_bytes
  refine Reads.bind (word _ (by omega)) ?_
  refine Reads.bind (word _ (by omega)) ?_
  refine Reads.bind (word _ (by omega)) ?_
  refine Reads.bind (reads_name e.1.name) ?_
  refine Reads.bind (word _ (by omega)) ?_
  refine bind_nil (ensure _ (by exact hn)) ?_
  exact bind_end (word _ (by omega)) (Reads.pure _)

/-- The record behind its declaration and counters. -/
def recordTail (d : Dispenser) : List UInt8 :=
  le 4 d.recordQueue.length ++ (d.recordQueue.flatMap encodeSpan ++ (le 4 d.members.fenceList.length
      ++ d.members.fenceList.flatMap encodeHolder))

def recordOf (d : Dispenser) (queue : List Span) (holders : List Holder) : Record where
  data := d.data
  states := d.streams.map fun st => (st.next, st.passesStarted)
  nextBlock := d.nextBlock % 2 ^ 64
  totals := d.recordTotals.words
  queue := queue
  holders := holders

def readTail (d : Dispenser) : Lib.Reader Record := do
  let queue ← Reader.spans
  let holders ← Reader.holders
  pure (recordOf d queue holders)

variable {d : Dispenser}

theorem checkData_encode (hb : Books d) : checkData (if d.data.isSome then 1 else 0)
      (d.data.getD ⟨[], zeroFingerprint⟩).streams
      (d.data.getD ⟨[], zeroFingerprint⟩).fingerprint = .ok d.data := by
  unfold checkData
  cases hd : d.data with
  | none => rfl
  | some decl =>
    have hv := (hb.data decl hd).1
    have hne : decl.streams ≠ [] := by
      intro he
      have := hv.count_pos
      rw [he] at this
      exact absurd this (lt_irrefl _)
    dsimp only [Option.isSome_some, Option.getD_some]
    rw [if_neg (by simp [hne]), if_pos (by simp), (DataDecl.validate_ok_iff decl).2 hv]

theorem read_encode (hb : Books d) : Record.read d.encodePersisted = readTail d (recordTail d) := by
  have hlen : d.streams.length = (d.data.getD ⟨[], zeroFingerprint⟩).streams.length := by
    cases hd : d.data with
    | none => rw [(hb.nodata hd).1]; rfl
    | some decl => exact (hb.data decl hd).2
  have hvalid : ∀ e ∈ ((d.data.getD ⟨[], zeroFingerprint⟩).streams.zip
      d.streams), Reads stream (encodeStream e) (streamEntry e) := by
    rintro ⟨decl, st⟩ he
    obtain ⟨h1, h2⟩ := of_mem_zip he
    obtain ⟨i, hi, rfl⟩ := getElem_of_mem h2
    have hcount := hb.counters i hi
    unfold Dispenser.stream at hcount
    rw [getD_eq_getElem _ _ hi] at hcount
    refine reads_stream ?_ hcount.1 hcount.2
    cases hd : d.data with
    | none => rw [hd] at h1; cases h1
    | some data => rw [hd] at h1; exact (hb.data data hd).1.streams decl h1
  have hstreams := many hvalid
  rw [length_zip, hlen, Nat.min_self] at hstreams
  have hfst : (((d.data.getD ⟨[], zeroFingerprint⟩).streams.zip
      d.streams).map streamEntry).map Prod.fst = (d.data.getD ⟨[], zeroFingerprint⟩).streams := by
    rw [map_map]
    exact map_fst_zip (le_of_eq hlen.symm)
  have hsnd : (((d.data.getD ⟨[], zeroFingerprint⟩).streams.zip
      d.streams).map streamEntry).map Prod.snd
        = d.streams.map fun st => (st.next, st.passesStarted) := by
    have hmap := congrArg (List.map fun st : StreamState =>
      (st.next, st.passesStarted)) (map_snd_zip (le_of_eq hlen))
    rw [map_map] at hmap ⊢
    exact hmap
  have hcount := hb.length_le
  have hflag : (if d.data.isSome then 1 else 0) < 256 ^ 1 := by split <;> decide
  have hmagic : Reads (Reader.take 4) persistMagic persistMagic := Reads.take _ rfl
  have hsame : Reads (Lib.Reader.ensure (persistMagic = persistMagic)
      "dispense record has a bad magic") [] () := ensure _ rfl
  have hfew : ∀ m, Reads (Lib.Reader.ensure
      ((d.data.getD ⟨[], zeroFingerprint⟩).streams.length ≤ maxStreams) m)
      [] () := fun m => ensure m (hlen ▸ hcount)
  have hn : Reads u16 (le 2 (d.data.getD ⟨[], zeroFingerprint⟩).streams.length)
      (d.data.getD ⟨[], zeroFingerprint⟩).streams.length := word _ (by omega)
  -- the chain of `read`, link by link
  refine (bind_eq hmagic _).trans ?_
  refine (bind_nil_eq hsame _).trans ?_
  refine (bind_eq (word _ hflag) _).trans ?_
  refine (bind_eq (reads_fingerprint _) _).trans ?_
  refine (bind_eq hn _).trans ?_
  refine (bind_nil_eq (hfew _) _).trans ?_
  refine (bind_eq hstreams _).trans ?_
  refine (bind_eq (word_mod _ 8 d.nextBlock) _).trans ?_
  refine (bind_eq (reads_totals _) _).trans ?_
  rw [hfst, hsnd, checkData_encode hb]
  rfl

/-- The queued spans fit their words. -/
def QueueWords (d : Dispenser) : Prop :=
  ∀ sp ∈ d.recordQueue, sp.start < 2 ^ 64 ∧ sp.stop < 2 ^ 64 ∧ sp.redo < 2 ^ 32

theorem length_flatMap_const {α : Type} {f : α → List UInt8} {k : Nat}
    (h : ∀ x, (f x).length = k) (l : List α) : (l.flatMap f).length = l.length * k := by
  induction l with
  | nil => simp
  | cons x l ih => rw [flatMap_cons, length_append, h, ih, length_cons, Nat.succ_mul, Nat.add_comm]

theorem length_encodeSpan (s : Span) : (encodeSpan s).length = 20 := by simp [encodeSpan]

theorem length_fenceList (m : Members) : m.fenceList.length ≤ retiredLimit := by
  unfold fenceList
  rw [length_drop]
  omega

theorem reads_holders {l : List Holder} (h : l.length ≤ retiredLimit) :
    Reads holders (le 4 l.length ++ l.flatMap encodeHolder) l := by
  have hlim : retiredLimit = 4096 := rfl
  refine Reads.bind (word _ (by omega)) ?_
  refine bind_nil (ensure _ h) ?_
  have hmany : Reads (many holder l.length)
      (l.flatMap encodeHolder) (l.map id) := many fun x _ => reads_holder x
  rwa [map_id] at hmany

theorem read_tail (hq : QueueWords d) (hlen : d.recordQueue.length < 2 ^ 32) :
    readTail d (recordTail d) = .ok (recordOf d d.recordQueue d.members.fenceList, []) := by
  have hspans : Reads (many span d.recordQueue.length)
      (d.recordQueue.flatMap encodeSpan) d.recordQueue := by
    have hmany : Reads (many span d.recordQueue.length)
        (d.recordQueue.flatMap encodeSpan) (d.recordQueue.map id) :=
      many fun x hx => reads_span (hq x hx).1 (hq x hx).2.1 (hq x hx).2.2
    rwa [map_id] at hmany
  have hread : Reads spans (le 4 d.recordQueue.length
      ++ d.recordQueue.flatMap encodeSpan) d.recordQueue := by
    refine Reads.bind (word _ hlen) fun rest => ?_
    refine (bind_nil_eq (ensure _ ?_) _).trans (hspans rest)
    rw [length_append, length_flatMap_const length_encodeSpan]
    omega
  have hholders := reads_holders (length_fenceList d.members)
  have hall : Reads (readTail d) (recordTail d) (recordOf d d.recordQueue d.members.fenceList) := by
    unfold recordTail
    rw [← append_assoc]
    refine Reads.bind hread ?_
    exact bind_end hholders (Reads.pure _)
  have := hall []
  rwa [append_nil] at this

theorem bounded_span : Bounded span 20 := Bounded.bind (word _ 8) fun _ =>
    Bounded.bind (word _ 8) fun _ =>
      Bounded.bind (word _ 4) fun _ => Bounded.pure _

theorem bounded_holder : Bounded holder 12 := Bounded.bind (word _ 4) fun _ =>
    Bounded.bind (word _ 8) fun _ => Bounded.pure _

theorem bounded_holders : Bounded holders (4 + 4096 * 12) := by
  refine Bounded.bind (word _ 4) fun n => ?_
  intro s a s' h
  obtain ⟨u, s₁, h1, h2⟩ := bind_eq_ok h
  obtain ⟨hn, rfl⟩ := ensure_ok h1
  have hlim : retiredLimit = 4096 := rfl
  have hmany := many bounded_holder n _ _ _ h2
  omega

theorem read_tail_long (hlen : 2 ^ 32 ≤ d.recordQueue.length) {r : Record} {left : List UInt8}
    (h : readTail d (recordTail d) = .ok (r, left)) : left ≠ [] := by
  unfold readTail recordTail at h
  obtain ⟨queue, s₁, h1, h⟩ := bind_eq_ok h
  obtain ⟨holders, s₂, h2, h⟩ := bind_eq_ok h
  cases h
  have hcount : u32 (le 4 d.recordQueue.length
      ++ (d.recordQueue.flatMap encodeSpan ++ (le 4 d.members.fenceList.length
        ++ d.members.fenceList.flatMap encodeHolder))) = .ok (d.recordQueue.length % 256 ^ 4, _) :=
    word_mod _ 4 d.recordQueue.length _
  unfold spans at h1
  rw [bind_ok hcount] at h1
  obtain ⟨all, s₃, h3, h1⟩ := bind_eq_ok h1
  cases h3
  obtain ⟨u, s₄, h4, h1⟩ := bind_eq_ok h1
  have hs := ensure _ _ _ _ _ h4
  have hmany := many bounded_span _ _ _ _ h1
  have hhold := bounded_holders _ _ _ h2
  rw [length_append, length_flatMap_const length_encodeSpan] at hs
  intro hnil
  rw [hnil, length_nil] at hhold
  omega

/-- What a restart from a record of `d` with the given lists is. -/
structure Restored (cfg : DispenseConfig) (lease : Nat) (d : Dispenser)
    (queue : List Span) (holders : List Holder) (d' : Dispenser) : Prop where
  cfg : d'.cfg = cfg
  data : d'.data = d.data
  streams : d'.streams = queue.foldl pushBack (d.streams.map fun st => { st with queue := [] })
  blocks : d'.blocks = .empty
  nextBlock : d'.nextBlock = max (d.nextBlock % 2 ^ 64) 1
  live : d'.live = .empty
  members : d'.members = (Members.new lease).retireAll holders .restart
  totals : d'.totals = d.recordTotals.words
  events : Quiet d'.events

theorem installStates_fresh (l : List StreamState) : ∀ n : List StreamDecl, n.length = l.length →
    installStates (n.map fun _ => StreamState.default) (l.map fun st => (st.next, st.passesStarted))
      = l.map fun st => { st with queue := [] } := by
  induction l with intro n hn
  | nil =>
    rw [length_eq_zero_iff.1 hn]
    rfl
  | cons st l ih =>
    cases n with
    | nil => cases hn
    | cons x n =>
      rw [map_cons, map_cons, installStates, ih n (Nat.succ.inj hn)]
      rfl

theorem restored_install (cfg : DispenseConfig) {lease : Nat}
    (hb : Books d) {queue : List Span} {holders : List Holder} : Restored cfg lease d queue holders
      ((withMembers cfg (new lease)).install (recordOf d queue holders)) := by
  cases hd : d.data with
  | none =>
    have hs := (hb.nodata hd).1
    unfold install recordOf
    rw [hd]
    exact ⟨rfl, hd.symm, by rw [hs]; rfl, rfl, rfl, rfl, rfl, rfl, quiet_one ⟨rfl, rfl, rfl⟩⟩
  | some decl =>
    have hstreams := installStates_fresh d.streams decl.streams (hb.data decl hd).2.symm
    unfold install recordOf
    rw [hd]
    refine ⟨rfl, hd.symm, ?_, rfl, rfl, rfl, rfl, rfl, ?_⟩
    · show queue.foldl pushBack (installStates _ _) = _
      rw [← hstreams]
      rfl
    · intro e he
      rcases mem_append.1 he with he | he
      · rcases mem_append.1 he with he | he
        · cases he
        · exact quiet_one ⟨rfl, rfl, rfl⟩ e he
      · exact quiet_one ⟨rfl, rfl, rfl⟩ e he

/-- A restore that succeeds read back the state: at least the counters,
and everything when the spans fit their fields. -/
theorem restore_inv {cfg : DispenseConfig} {lease : Nat} {d d' : Dispenser} (hb : Books d)
    (h : (withMembers cfg (new lease)).restorePersisted d.encodePersisted = .ok d') :
    ∃ queue holders, Restored cfg lease d queue holders d'
      ∧ (QueueWords d → d.recordQueue.length < 2 ^ 32
        ∧ queue = d.recordQueue ∧ holders = d.members.fenceList) := by
  unfold restorePersisted at h
  unfold parse at h
  rw [read_encode hb] at h
  cases hr : readTail d (recordTail d) with
  | error m => rw [hr] at h; cases h
  | ok res =>
    obtain ⟨r, left⟩ := res
    rw [hr] at h
    dsimp only at h
    by_cases hl : left.length ≠ 0
    · rw [if_pos hl] at h
      cases h
    rw [if_neg hl] at h
    have hnil : left = [] := eq_nil_of_length_eq_zero (not_not.1 hl)
    cases hf : r.queue.find? (fun span => !r.spanOk span) with
    | some bad => rw [hf] at h; cases h
    | none =>
      rw [hf] at h
      cases h
      have hrec : ∃ queue holders, r = recordOf d queue holders := by
        obtain ⟨queue, s₁, -, hr'⟩ := bind_eq_ok hr
        obtain ⟨holders, s₂, -, hr'⟩ := bind_eq_ok hr'
        cases hr'
        exact ⟨queue, holders, rfl⟩
      obtain ⟨queue, holders, rfl⟩ := hrec
      refine ⟨queue, holders, restored_install cfg hb, fun hq => ?_⟩
      have hlen : d.recordQueue.length < 2 ^ 32 := by
        by_contra hlen
        exact read_tail_long (not_lt.1 hlen) hr hnil
      have hsame := (Prod.mk.inj (Except.ok.inj (hr.symm.trans (read_tail hq hlen)))).1
      have hqueue := congrArg Record.queue hsame
      have hholders := congrArg Record.holders hsame
      dsimp only [recordOf] at hqueue hholders
      exact ⟨hlen, hqueue, hholders⟩

theorem restore_ok (cfg : DispenseConfig) {lease : Nat}
    (hb : Books d) (hq : QueueWords d) (hlen : d.recordQueue.length < 2 ^ 32)
    (hok : ∀ sp ∈ d.recordQueue, (recordOf d d.recordQueue d.members.fenceList).spanOk sp = true) :
    ∃ d', (withMembers cfg (new lease)).restorePersisted d.encodePersisted = .ok d'
      ∧ Restored cfg lease d d.recordQueue d.members.fenceList d' := by
  refine ⟨_, ?_, restored_install cfg hb⟩
  unfold restorePersisted
  rw [if_neg (by simp [withMembers, SortedMap.empty])]
  unfold parse
  rw [read_encode hb, read_tail hq hlen]
  dsimp only
  have hnone : (recordOf d d.recordQueue d.members.fenceList).queue.find?
      (fun span => !(recordOf d d.recordQueue d.members.fenceList).spanOk span) = none := by
    rw [find?_eq_none]
    intro sp hsp
    rw [hok sp hsp]
    decide
  rw [if_neg (by simp), hnone]

theorem restore_long (cfg : DispenseConfig) {lease : Nat} (hb : Books d) (hq : QueueWords d)
    (hlen : 2 ^ 32 ≤ d.recordQueue.length) (d' : Dispenser) :
    (withMembers cfg (new lease)).restorePersisted d.encodePersisted ≠ .ok d' := by
  intro h
  obtain ⟨queue, holders, -, himp⟩ := restore_inv hb h
  have := (himp hq).1
  omega

theorem recordQueue_eq (d : Dispenser) :
    d.recordQueue = (List.range d.streams.length).flatMap fun s =>
      (d.heldSpans.filter fun sp => decide (streamOf sp.start = s)) ++ (d.stream s).queue := by
  have hzip : d.streams.zipIdx = (range d.streams.length).map fun s => (d.stream s, s) := by
    refine ext_getElem (by simp) fun i h1 h2 => ?_
    have hi : i < d.streams.length := by simpa using h1
    simp only [getElem_zipIdx, getElem_map, getElem_range, Nat.zero_add]
    unfold Dispenser.stream
    rw [getD_eq_getElem _ _ hi]
  unfold recordQueue
  rw [hzip, flatMap_map]

theorem mem_heldSpans : sp ∈ d.heldSpans ↔ ∃ id b, d.blocks.find id = some b ∧ sp ∈ b.spans := by
  unfold heldSpans
  rw [mem_sortSpans, mem_flatMap]
  constructor
  · rintro ⟨b, hb, hsp⟩
    obtain ⟨id, hf⟩ := (SortedMap.mem_values_iff _ _).1 hb
    exact ⟨id, b, hf, hsp⟩
  · rintro ⟨id, b, hf, hsp⟩
    exact ⟨b, (SortedMap.mem_values_iff _ _).2 ⟨id, hf⟩, hsp⟩

theorem cellsOf_heldSpans (d : Dispenser) : cellsOf d.heldSpans = heldCells d.blocks := by
  have hlist : ∀ l : List (Nat × Block), cellsOf ((l.map Prod.snd).flatMap Block.spans)
        = (l.map fun e => cellsOf e.2.spans).sum := by
    intro l
    induction l with
    | nil => rfl
    | cons e l ih => rw [map_cons, flatMap_cons, cellsOf_append, ih, map_cons, sum_cons]
  unfold heldSpans
  rw [cellsOf_sortSpans]
  exact hlist d.blocks.entries

theorem recordQueue_inStream {log : List DispenseEvent} (h : Conserved d log)
    (hsp : sp ∈ d.recordQueue) : ∃ s < d.streams.length, InStream s (d.stream s).next sp := by
  rw [recordQueue_eq] at hsp
  obtain ⟨s, hs, hsp⟩ := mem_flatMap.1 hsp
  rcases mem_append.1 hsp with hsp | hsp
  · obtain ⟨id, b, hf, hmem⟩ := mem_heldSpans.1 (mem_filter.1 hsp).1
    exact h.held id b hf sp hmem
  · exact ⟨s, mem_range.1 hs, h.queues s sp hsp⟩

theorem cells_recordQueue {log : List DispenseEvent} (h : Conserved d log) (hb : Books d) :
    cellsOf d.recordQueue = heldCells d.blocks + queueCells d.streams := by
  have hlist : ∀ (f : Nat → List Span) (n : Nat),
      cellsOf ((range n).flatMap f) = ∑ s ∈ Finset.range n, cellsOf (f s) := by
    intro f n
    induction n with
    | zero => rfl
    | succ n ih =>
      rw [range_succ, flatMap_append, cellsOf_append, ih, Finset.sum_range_succ]
      simp
  rw [recordQueue_eq, hlist]
  simp only [cellsOf_append]
  rw [Finset.sum_add_distrib, sum_filter_streams, cellsOf_heldSpans]
  · rfl
  · intro sp hsp
    obtain ⟨id, b, hf, hmem⟩ := mem_heldSpans.1 hsp
    exact streamOf_lt hb.next (h.held id b hf sp hmem)

theorem foldl_pushBack_next (queue : List Span) : ∀ l : List StreamState,
    (queue.foldl pushBack l).length = l.length
      ∧ ∀ s, ((queue.foldl pushBack l).getD s .default).next = (l.getD s .default).next
        ∧ ((queue.foldl pushBack l).getD s .default).passesStarted
          = (l.getD s .default).passesStarted := by
  induction queue with
  | nil => intro l; exact ⟨rfl, fun s => ⟨rfl, rfl⟩⟩
  | cons sp queue ih =>
    intro l
    obtain ⟨h1, h2⟩ := ih (pushBack l sp)
    rw [foldl_cons]
    refine ⟨h1.trans (length_modify _ _ _), fun s => ?_⟩
    rw [(h2 s).1, (h2 s).2]
    refine ⟨getD_modify_of_eq StreamState.next ?_ ..,
      getD_modify_of_eq StreamState.passesStarted ?_ ..⟩ <;> exact fun _ => rfl

theorem foldl_pushBack_queue (queue : List Span) : ∀ l : List StreamState,
    (∀ sp ∈ queue, streamOf sp.start < l.length) → ∀ s,
      ((queue.foldl pushBack l).getD s .default).queue = (l.getD s .default).queue
          ++ queue.filter fun sp => decide (streamOf sp.start = s) := by
  induction queue with
  | nil => intro l _ s; exact (append_nil _).symm
  | cons sp queue ih =>
    intro l hl s
    obtain ⟨h0, hl⟩ := forall_mem_cons.1 hl
    rw [foldl_cons, ih (pushBack l sp) (by
      unfold pushBack
      rw [length_modify]
      exact hl)]
    unfold pushBack
    rw [getD_modify _ _ _ _ h0, filter_cons]
    by_cases hs : s = streamOf sp.start
    · subst hs
      simp
    · have hne : ¬ streamOf sp.start = s := fun he => hs he.symm
      simp [hs, hne]

theorem getD_clear (l : List StreamState) (s : Nat) :
    (l.map fun st => { st with queue := [] }).getD s .default
      = { l.getD s .default with queue := [] } := by
  rw [getD_eq_getElem?_getD, getD_eq_getElem?_getD, getElem?_map]
  cases l[s]? <;> rfl

section Restore

variable {cfg : DispenseConfig} {lease : Nat} {d' : Dispenser}
  {log : List DispenseEvent} {queue : List Span} {holders : List Holder}

section

variable (h : Restored cfg lease d queue holders d')
include h

theorem Restored.length : d'.streams.length = d.streams.length := by
  rw [h.streams, (foldl_pushBack_next _ _).1, length_map]

theorem Restored.stream (s : Nat) : (d'.stream s).next = (d.stream s).next
      ∧ (d'.stream s).passesStarted = (d.stream s).passesStarted := by
  unfold Dispenser.stream
  rw [h.streams, ((foldl_pushBack_next _ _).2 s).1, ((foldl_pushBack_next _ _).2 s).2, getD_clear]
  exact ⟨rfl, rfl⟩

theorem Restored.books (hb : Books d) : Books d' := by
  refine ⟨?_, ?_, ?_, ?_, ?_, ?_, ?_, ?_, ?_⟩
  · rw [h.members]
    exact ok_retireAll (ok_new lease) holders .restart
  · rw [h.blocks]; nofun
  · rw [h.live]; nofun
  · rw [h.blocks]; nofun
  · rw [h.nextBlock]
    exact Nat.le_max_right _ _
  · rw [h.live]; nofun
  · intro decl hd
    rw [h.data] at hd
    rw [h.length]
    exact hb.data decl hd
  · intro hd
    rw [h.data] at hd
    refine ⟨eq_nil_of_length_eq_zero ?_, h.live⟩
    rw [h.length, (hb.nodata hd).1]
    rfl
  · intro s hs
    rw [(h.stream s).1, (h.stream s).2]
    exact hb.counters s (h.length ▸ hs)

end

theorem Conserved.queueWords (h : Conserved d log) (hb : Books d) : QueueWords d := by
  intro sp hsp
  obtain ⟨s, hs, hi⟩ := recordQueue_inStream h hsp
  have hlen := hb.length_le
  have hproper := hi.proper (by omega) (hb.next s hs)
  have hcell : (sp.start, sp.redo) ∈ heldCells d.blocks + queueCells d.streams := by
    rw [← cells_recordQueue h hb]
    exact mem_cellsOf.2 ⟨sp, hsp, mem_cells.2 ⟨le_rfl, hproper.1, rfl⟩⟩
  have hredo : (putBackOf log).count sp.start = sp.redo := by
    refine h.ledger.counts (sp.start, sp.redo) ?_
    rw [add_comm]
    exact hcell
  have hmax : (putBackOf log).count sp.start ≤ d.cfg.maxRedo.val := h.ledger.bounded sp.start
  exact ⟨lt_trans hproper.1 hproper.2, hproper.2, by omega⟩

theorem spanOk_recordQueue (h : Conserved d log) (hb : Books d) (hsp : sp ∈ d.recordQueue) :
    (recordOf d d.recordQueue d.members.fenceList).spanOk sp = true := by
  obtain ⟨s, hs, hi⟩ := recordQueue_inStream h hsp
  have hn := hb.next s hs
  have hstart := hi.streamOf_eq hn
  obtain ⟨h1, h2, h3⟩ := hi
  have hstop : streamOf (sp.stop - 1) = s := by
    rw [streamOf_eq]
    exact Nat.div_eq_of_lt_le (by omega) (by omega)
  have hlocal : localOf (sp.stop - 1) < (d.stream s).next := by
    rw [localOf_eq]
    have hdiv := Nat.div_add_mod (sp.stop - 1) (2 ^ 40)
    rw [streamOf_eq] at hstop
    omega
  have hstate : ((recordOf d d.recordQueue d.members.fenceList).states.getD s
      (0, 0)).1 = (d.stream s).next := by
    unfold recordOf Dispenser.stream
    rw [getD_eq_getElem?_getD, getD_eq_getElem?_getD, getElem?_map, getElem?_eq_getElem hs]
    rfl
  have hcount : ((recordOf d d.recordQueue d.members.fenceList).data.map
      (·.streams.length)).getD 0 = d.streams.length := by
    show (d.data.map (·.streams.length)).getD 0 = _
    cases hd : d.data with
    | none => rw [(hb.nodata hd).1]; rfl
    | some decl => exact (hb.data decl hd).2.symm
  dsimp only [spanOk]
  rw [hcount, hstart, hstate]
  simp only [Bool.and_eq_true, decide_eq_true_eq]
  exact ⟨⟨⟨h2, hs⟩, hstop⟩, hlocal⟩

theorem Restored.queue_eq (h : Restored cfg lease d d.recordQueue holders d')
    (hc : Conserved d log) (hb : Books d) (s : Nat) : (d'.stream s).queue
      = d.recordQueue.filter fun sp => decide (streamOf sp.start = s) := by
  have hin : ∀ sp ∈ d.recordQueue, streamOf sp.start
      < (d.streams.map fun st => { st with queue := [] }).length := by
    intro sp hsp
    rw [length_map]
    exact streamOf_lt hb.next (recordQueue_inStream hc hsp)
  unfold Dispenser.stream
  rw [h.streams, foldl_pushBack_queue _ _ hin, getD_clear, nil_append]

theorem Totals.done_words {t : Totals} (h : t.done < 2 ^ 64) : t.words.done = t.done := by
  unfold Totals.done at h ⊢
  dsimp only [Totals.words]
  rw [Nat.mod_eq_of_lt (by omega), Nat.mod_eq_of_lt (by omega), Nat.mod_eq_of_lt (by omega)]

theorem Restored.cells_eq (h : Restored cfg lease d d.recordQueue holders d')
    (hc : Conserved d log) (hb : Books d) :
    queueCells d'.streams = heldCells d.blocks + queueCells d.streams := by
  rw [← cells_recordQueue hc hb]
  unfold queueCells
  rw [h.length, ← sum_filter_streams d.recordQueue d.streams.length]
  · refine Finset.sum_congr rfl fun s _ => ?_
    rw [show (d'.streams.getD s .default).queue = _ from h.queue_eq hc hb s]
  · exact fun sp hsp => streamOf_lt hb.next (recordQueue_inStream hc hsp)

theorem Restored.conserved (h : Restored cfg lease d d.recordQueue holders d')
    (hc : Conserved d log) (hb : Books d) (hcfg : d.cfg = cfg) :
    Conserved d' (log ++ d'.events) := by
  have hgiven : givenOf d'.streams = givenOf d.streams :=
    givenOf_congr h.length fun s => (h.stream s).1
  refine Conserved.quiet ⟨?_, ?_, ?_, ?_, hc.history⟩ h.events
  · rw [h.cfg, ← hcfg]
    refine hc.ledger.of_active_eq ?_ rfl rfl hgiven
    show queueCells d'.streams + heldCells d'.blocks = _
    rw [h.cells_eq hc hb, h.blocks]
    show heldCells d.blocks + queueCells d.streams + 0 = queueCells d.streams + heldCells d.blocks
    rw [add_zero, add_comm]
  · intro s sp hsp
    rw [h.queue_eq hc hb] at hsp
    obtain ⟨hmem, hstream⟩ := mem_filter.1 hsp
    obtain ⟨t, ht, hi⟩ := recordQueue_inStream hc hmem
    have : t = s := by
      rw [← hi.streamOf_eq (hb.next t ht)]
      exact of_decide_eq_true hstream
    subst this
    rw [(h.stream t).1]
    exact hi
  · intro id b hf
    rw [h.blocks] at hf
    cases hf
  · have hdone : d.recordTotals.done = d.totals.done := rfl
    have hcard := hc.card_le hb
    rw [← hc.totals] at hcard
    rw [h.totals, Totals.done_words (by omega), hdone]
    exact hc.totals

end Restore

end Yeto.Dispense
