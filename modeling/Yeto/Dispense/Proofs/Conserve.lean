/-
Conservation: the dispenser is a ledger of positions.

`Conserved d log` says that the ledger read off the state and its log is in
order, that every span lies in one stream below what the stream gave out, that
the totals count the settled positions, and that no grant names a position
settled before it. Every operation keeps it (`Keeps`), as a few moves of
`Lib.Ledger`. A claim is the only step that needs the streams to fit AFTER it.
-/
import Yeto.Dispense.Proofs.Requests

namespace Yeto.Dispense

open Lib Dispenser List SortedMap Ledger Dispense.Span

variable {e : DispenseEvent} {maxRedo p : Nat}

/-- The later event grants nothing the earlier one settled. -/
def KeepsSettled (e e' : DispenseEvent) : Prop := ∀ p ∈ e'.granted, p ∉ e.settled

structure Conserved (d : Dispenser) (log : List DispenseEvent) : Prop where
  ledger : (ledgerOf d log).Ok d.cfg.maxRedo.val
  queues : ∀ s, ∀ sp ∈ (d.stream s).queue, InStream s (d.stream s).next sp
  held : ∀ id b, d.blocks.find id = some b → ∀ sp ∈ b.spans,
    ∃ s < d.streams.length, InStream s (d.stream s).next sp
  totals : d.totals.done = (settledOf log).card
  history : log.Pairwise KeepsSettled

/-- The step from `d` to `d'` appends to the log and conserves. -/
def Keeps (d d' : Dispenser) : Prop := ∃ es, d'.events = d.events ++ es
    ∧ ∀ log, Conserved d log → Conserved d' (log ++ es)

theorem Keeps.refl (d : Dispenser) : Keeps d d :=
  ⟨[], (append_nil _).symm, fun log h => by rwa [append_nil]⟩

theorem Keeps.trans {a b c : Dispenser} (h : Keeps a b) (h' : Keeps b c) : Keeps a c := by
  obtain ⟨es, he, hk⟩ := h
  obtain ⟨es', he', hk'⟩ := h'
  refine ⟨es ++ es', by rw [he', he, append_assoc], fun log hc => ?_⟩
  rw [← append_assoc]
  exact hk' _ (hk _ hc)

variable {log : List DispenseEvent}

theorem settledOf_cons : settledOf (e :: log) = e.settled + settledOf log := sum_cons

theorem putBackOf_cons : putBackOf (e :: log) = e.putBack + putBackOf log := sum_cons

theorem mem_settledOf : p ∈ settledOf log ↔ ∃ e ∈ log, p ∈ e.settled := by
  induction log with
  | nil => simp [settledOf]
  | cons e log ih =>
    rw [settledOf_cons, Multiset.mem_add, ih]
    simp

theorem history_append {es : List DispenseEvent} (h : log.Pairwise KeepsSettled)
    (hes : ∀ e ∈ es, e.granted = 0) : (log ++ es).Pairwise KeepsSettled := by
  have hnone : ∀ e e', e' ∈ es → KeepsSettled e e' := by
    intro e e' he' p hp
    rw [hes e' he'] at hp
    exact absurd hp (Multiset.notMem_zero p)
  refine pairwise_append.2 ⟨h, ?_, fun e _ e' he' => hnone e e' he'⟩
  exact pairwise_of_forall_mem_list fun e _ e' he' => hnone e e' he'

variable {es : List DispenseEvent} {d d' : Dispenser}

theorem Conserved.quiet (h : Conserved d log) (hes : Quiet es) : Conserved d (log ++ es) := by
  have hset : settledOf (log ++ es) = settledOf log := by
    rw [settledOf_append, hes.settledOf_eq, add_zero]
  have hput : putBackOf (log ++ es) = putBackOf log := by
    rw [putBackOf_append, hes.putBackOf_eq, add_zero]
  refine ⟨?_, h.queues, h.held, by rw [hset]; exact h.totals,
    history_append h.history fun e he => (hes e he).2.2⟩
  unfold ledgerOf
  rw [hset, hput]
  exact h.ledger

theorem keeps_of_eq (hes : Quiet es) (he : d'.events = d.events ++ es) (hc : d'.cfg = d.cfg)
    (hs : d'.streams = d.streams) (hb : d'.blocks = d.blocks)
    (ht : d'.totals.done = d.totals.done) : Keeps d d' := by
  refine ⟨es, he, fun log h => Conserved.quiet ?_ hes⟩
  have hledger : ledgerOf d' log = ledgerOf d log := by
    unfold ledgerOf
    rw [hs, hb]
  refine ⟨by rw [hledger, hc]; exact h.ledger, ?_, ?_, ht.trans h.totals, h.history⟩
  · unfold stream
    rw [hs]
    exact h.queues
  · unfold stream
    rw [hs, hb]
    exact h.held

theorem quiet_nil : Quiet [] := forall_mem_nil _

section

variable (d : Dispenser)

theorem keeps_with_members (m : Members) : Keeps d { d with members := m } :=
  keeps_of_eq quiet_nil (append_nil _).symm rfl rfl rfl rfl

theorem keeps_with_live {live : SortedMap Holder Live} :
    Keeps d { d with live := live } := keeps_of_eq quiet_nil (append_nil _).symm rfl rfl rfl rfl

theorem quiet_one (h : e.settled = 0 ∧ e.putBack = 0 ∧ e.granted = 0) : Quiet [e] := by
  intro e' he
  rw [mem_singleton.1 he]
  exact h

theorem keeps_log (hes : Quiet es) : Keeps d (d.log es) := keeps_of_eq hes rfl rfl rfl rfl rfl

theorem keeps_touched (holder : Holder) (now : Nat) :
    Keeps d (touched d holder now) := keeps_with_members d _

theorem keeps_remember (holder : Holder) (seq : Nat) {answer : Answer} :
    Keeps d (d.remember holder seq answer) := keeps_with_live _

end

variable {sp : Span}

section

variable {next : Nat} {s : Nat} (h : InStream s next sp)
include h

theorem InStream.streamOf_mem (hn : next ≤ 2 ^ 40) (hlow : sp.start ≤ p) (hhigh : p < sp.stop) :
    streamOf p = s := by
  obtain ⟨h1, h2, h3⟩ := h
  rw [Yeto.Dispense.streamOf_eq]
  exact Nat.div_eq_of_lt_le (by omega) (by omega)

theorem InStream.streamOf_eq (hn : next ≤ 2 ^ 40) : streamOf sp.start = s :=
  h.streamOf_mem hn le_rfl h.nonempty

theorem InStream.mono {next' : Nat} (hn : next ≤ next') : InStream s next' sp :=
  ⟨h.lower, h.nonempty, le_trans h.upper (by omega)⟩

theorem InStream.proper (hs : s < 256) (hn : next ≤ 2 ^ 40) : Proper sp := by
  obtain ⟨h1, h2, h3⟩ := h
  exact ⟨h2, by omega⟩

end

theorem Books.length_le (h : Books d) : d.streams.length ≤ 256 := by
  cases hd : d.data with
  | none =>
    rw [(h.nodata hd).1]
    exact Nat.zero_le _
  | some decl =>
    rw [(h.data decl hd).2]
    exact (h.data decl hd).1.count_le

theorem lt_length_of_queue {s : Nat} (h : sp ∈ (d.stream s).queue) : s < d.streams.length := by
  by_contra hn
  unfold stream at h
  rw [getD_eq_default _ _ (by omega)] at h
  cases h

theorem Conserved.queuesProper (h : Conserved d log) (hb : Books d) : QueuesProper d.streams := by
  intro s sp hsp
  have hs : s < d.streams.length := lt_length_of_queue (d := d) hsp
  have hlen := hb.length_le
  exact (h.queues s sp hsp).proper (by omega) (hb.next s hs)

variable {spans : List Span}

theorem streamOf_lt (hnext : ∀ s < d.streams.length, (d.stream s).next ≤ 2 ^ 40)
    (h : ∃ s < d.streams.length, InStream s (d.stream s).next sp) :
    streamOf sp.start < d.streams.length := by
  obtain ⟨s, hs, hi⟩ := h
  rwa [hi.streamOf_eq (hnext s hs)]

theorem queues_pushFront (hnext : ∀ s < d.streams.length, (d.stream s).next ≤ 2 ^ 40)
    (hq : ∀ s, ∀ sp ∈ (d.stream s).queue, InStream s (d.stream s).next sp)
    (hin : ∀ sp ∈ spans, ∃ s < d.streams.length, InStream s (d.stream s).next sp) :
    (∀ s, ∀ sp ∈ ((d.pushFront spans).stream s).queue,
        InStream s ((d.pushFront spans).stream s).next sp) ∧ queueCells (d.pushFront spans).streams
        = cellsOf spans + queueCells d.streams := by
  have hstream : ∀ sp ∈ sortSpans spans, streamOf sp.start < d.streams.length :=
    fun sp hsp => streamOf_lt hnext (hin sp (mem_sortSpans.1 hsp))
  constructor
  · intro s sp hsp
    have hn : ((d.pushFront spans).stream s).next = (d.stream s).next :=
      ((foldr_pushSpan_next _ _).2 s).1
    rw [hn]
    have hqueue := foldr_pushSpan_queue (sortSpans spans) d.streams hstream s
    rw [show ((d.pushFront spans).stream s).queue = _ from hqueue, mem_append] at hsp
    rcases hsp with hsp | hsp
    · obtain ⟨h1, h2⟩ := mem_filter.1 hsp
      obtain ⟨t, ht, hi⟩ := hin sp (mem_sortSpans.1 h1)
      have : t = s := by
        rw [← hi.streamOf_eq (hnext t ht)]
        exact of_decide_eq_true h2
      rwa [this] at hi
    · exact hq s sp hsp
  · show queueCells ((sortSpans spans).foldr pushSpan d.streams) = _
    rw [queueCells_foldr_pushSpan _ _ hstream, cellsOf_sortSpans]

theorem givenOf_pushFront : givenOf (d.pushFront spans).streams = givenOf d.streams :=
  givenOf_congr (foldr_pushSpan_next _ _).1 fun s => ((foldr_pushSpan_next _ _).2 s).1

theorem stream_pushFront {s : Nat} :
    ((d.pushFront spans).stream s).next = (d.stream s).next := ((foldr_pushSpan_next _ _).2 s).1

theorem length_pushFront :
    (d.pushFront spans).streams.length = d.streams.length := (foldr_pushSpan_next _ _).1

section

variable (hb : Books d)
include hb

/-- The spans taken from a holder's blocks move from held to pending. -/
theorem keeps_reclaim (holder : Holder) (reason : ReclaimReason) :
    Keeps d (d.reclaim holder reason).2 := by
  cases hl : d.live.find holder with
  | none =>
    rw [reclaim_none reason hl]
    exact Keeps.refl d
  | some live =>
    rw [reclaim_some reason hl]
    refine ⟨_, rfl, fun log h =>
      Conserved.quiet ?_ (quiet_one ⟨rfl, rfl, rfl⟩)⟩
    have hheld := heldCells_takeBlocks live.blocks.keys d.blocks
    have hfind := find_takeBlocks live.blocks.keys d.blocks
    have hin : ∀ sp ∈ (takeBlocks live.blocks.keys d.blocks).1,
        ∃ s < d.streams.length, InStream s (d.stream s).next sp := by
      intro sp hsp
      obtain ⟨id, b, hf, hmem⟩ := mem_takeBlocks hsp
      exact h.held id b hf sp hmem
    obtain ⟨hq, hcells⟩ := queues_pushFront
      (d := afterReclaim d holder reason live) hb.next h.queues hin
    refine ⟨?_, hq, ?_, h.totals, h.history⟩
    · have hok := h.ledger
      unfold ledgerOf at hok ⊢
      rw [hheld] at hok
      rw [hcells, givenOf_pushFront]
      exact hok.step .giveBack
    · intro id b hf sp hsp
      have hf' : (takeBlocks live.blocks.keys d.blocks).2.find id = some b := hf
      rw [hfind] at hf'
      split at hf'
      · cases hf'
      · rw [length_pushFront]
        obtain ⟨s, hs, hi⟩ := h.held id b hf' sp hsp
        exact ⟨s, hs, by rw [stream_pushFront]; exact hi⟩

theorem keeps_reclaims (es : List (Holder × ReclaimReason)) : Keeps d (reclaimAll es d) := by
  refine (reclaims_keeps (Q := fun d' => Books d' ∧ Keeps d d') ?_ es ⟨hb, Keeps.refl d⟩).2
  intro d' holder reason h
  exact ⟨h.1.reclaim holder reason, h.2.trans (keeps_reclaim h.1 holder reason)⟩

theorem keeps_expire (now : Nat) : Keeps d (d.expire now).2 := by
  obtain ⟨es, -, heq⟩ := expire_eq d now
  have hm := hb.with_members (Members.ok_expire hb.members now)
  rw [heq]
  exact (keeps_with_members d _).trans (keeps_reclaims hm es)

theorem keeps_fixData (data : DataDecl) (hd : d.data = none) : Keeps d (d.fixData data) := by
  refine ⟨[.streams data.streams data.fingerprint], rfl, fun log h =>
    Conserved.quiet ?_ (quiet_one ⟨rfl, rfl, rfl⟩)⟩
  obtain ⟨hs, hlive⟩ := hb.nodata hd
  have hnone : ∀ id, d.blocks.find id = none := by
    intro id
    cases hf : d.blocks.find id with
    | none => rfl
    | some b =>
      obtain ⟨l, hl, -⟩ := hb.owner id b hf
      rw [hlive] at hl
      cases hl
  have hdefault := stream_fixData d data
  have hqueue : queueCells (d.fixData data).streams = queueCells d.streams := by
    rw [hs]
    refine Finset.sum_eq_zero fun s _ => ?_
    show cellsOf ((d.fixData data).stream s).queue = 0
    rw [hdefault]
    rfl
  have hgiven : givenOf (d.fixData data).streams = givenOf d.streams := by
    rw [hs]
    refine Finset.sum_eq_zero fun s _ => ?_
    show Multiset.Ico _ (s * 2 ^ 40 + ((d.fixData data).stream s).next) = 0
    rw [hdefault, show StreamState.default.next = 0 from rfl, Nat.add_zero, Multiset.Ico_self]
  refine ⟨?_, ?_, ?_, h.totals, h.history⟩
  · unfold ledgerOf
    rw [hqueue, hgiven]
    exact h.ledger
  · intro s sp hsp
    rw [hdefault] at hsp
    cases hsp
  · intro id b hf
    rw [show (d.fixData data).blocks.find id = d.blocks.find id from rfl, hnone] at hf
    cases hf

theorem keeps_enroll {holder : Holder} (data : DataDecl) (list : List Nat) (now : Nat)
    (hr : d.members.isRetired holder = false) : Keeps d (d.enroll holder data list now).2 := by
  dsimp only [enroll]
  split
  · exact keeps_of_eq (quiet_one ⟨rfl, rfl, rfl⟩) rfl rfl rfl rfl rfl
  split
  · exact Keeps.refl d
  · have hj := hb.with_members (Members.ok_join hb.members now hr)
    rw [supersede_eq]
    refine (keeps_with_members d _).trans ((keeps_reclaims hj
      ((d.olderOf holder).map (·, .superseded))).trans ?_)
    exact keeps_of_eq (quiet_one ⟨rfl, rfl, rfl⟩) rfl rfl rfl rfl rfl

theorem keeps_openWith (holder : Holder) (data : DataDecl) (accept : Option (List Nat))
    (now : Nat) : Keeps d (d.openWith holder data accept now).2 := by
  unfold openWith
  split
  · exact keeps_log d (quiet_one ⟨rfl, rfl, rfl⟩)
  next hr =>
  split
  · exact Keeps.refl d
  split
  · exact Keeps.refl d
  next hv =>
  have hvalid := (DataDecl.validate_ok_iff data).1 hv
  split
  · exact Keeps.refl d
  next d' ha =>
  obtain ⟨hb', -, hm⟩ := hb.agreeData hvalid ha
  have hk : Keeps d d' := by
    rcases agreeData_ok ha with ⟨-, rfl⟩ | ⟨hd, rfl⟩
    · exact Keeps.refl _
    · exact keeps_fixData hb data hd
  split
  · exact hk
  · next list _ =>
    refine hk.trans (keeps_enroll hb' data list now ?_)
    rw [hm]
    simpa using hr

end

/-- What a claim collected, before anything is granted: the ledger with
the collected cells in hand. -/
structure Collected (d : Dispenser) (log : List DispenseEvent)
    (accept : List Nat) (spans : List Span) (d' : Dispenser) : Prop where
  ledger : Ledger.Ok d.cfg.maxRedo.val ⟨queueCells d'.streams,
    cellsOf spans + heldCells d.blocks, settledOf log, putBackOf log, givenOf d'.streams⟩
  queues : ∀ s, ∀ sp ∈ (d'.stream s).queue, InStream s (d'.stream s).next sp
  spans : ∀ sp ∈ spans, ∃ s ∈ accept, s < d'.streams.length ∧ InStream s (d'.stream s).next sp
  next : ∀ s, (d.stream s).next ≤ (d'.stream s).next

theorem queueCells_congr {l l' : List StreamState} (hlen : l'.length = l.length)
    (h : ∀ s, (l'.getD s .default).queue = (l.getD s .default).queue) :
    queueCells l' = queueCells l := by
  unfold queueCells
  rw [hlen]
  exact Finset.sum_congr rfl fun s _ => by rw [h s]

variable {accept : List Nat}

theorem collected (hb : Books d) (h : Conserved d log) (wanted : Nat)
    (hacc : ∀ s ∈ accept, s < d.streams.length) (hfit : Fits (d.collect accept wanted).2.streams) :
    Collected d log accept (d.collect accept wanted).1 (d.collect accept wanted).2 := by
  have hdr := drainStreams_spec accept wanted d.streams hacc (h.queuesProper hb)
  have hpick := picked_picksOf wanted hacc
  have hbooks := hb.collect wanted hacc
  rw [collect_eq] at hfit hbooks ⊢
  have hin := picksOf_lt wanted hacc
  obtain ⟨hcells, hspans⟩ := cells_giveFresh hpick.distinct hin hfit
  have hgiven := givenOf_giveFresh _ _ hpick.distinct hin
  have hstream := stream_giveFresh _ _ hin
  have hlen := (gave_giveFresh (picksOf d accept wanted) (afterDrain d accept wanted)).length
  have hgiven' : givenOf (afterDrain d accept wanted).streams = givenOf d.streams :=
    givenOf_congr hdr.length fun s => (hdr.next s).1
  rw [hgiven'] at hgiven
  have hnext : ∀ s, (d.stream s).next ≤ ((giveFresh (picksOf d accept wanted)
      (afterDrain d accept wanted)).2.stream s).next := by
    intro s
    rw [(hstream s).1]
    exact (hdr.next s).1.ge.trans (Nat.le_add_right _ _)
  refine ⟨?_, ?_, ?_, hnext⟩
  · have hok := h.ledger
    unfold ledgerOf at hok
    rw [hdr.cells] at hok
    have hnd := nodup_givenOf hbooks.next
    rw [hgiven] at hnd
    have hfresh := (hok.step .take).step_fresh hnd
    rw [← hcells, ← hgiven] at hfresh
    rw [queueCells_congr hlen fun s => (hstream s).2]
    refine hfresh.of_active_eq ?_ rfl rfl rfl
    dsimp only [afterDrain]
    rw [cellsOf_append]
    abel
  · intro s sp hsp
    rw [(hstream s).2] at hsp
    obtain ⟨sp₀, h1, h2⟩ := hdr.rest s sp hsp
    exact (h2.inStream (h.queues s sp₀ h1)).mono (hnext s)
  · intro sp hsp
    rw [hlen.trans hdr.length]
    rcases mem_append.1 hsp with hsp | hsp
    · obtain ⟨s, hs, sp₀, h1, h2⟩ := hdr.taken sp hsp
      exact ⟨s, hs, hacc s hs, (h2.inStream (h.queues s sp₀ h1)).mono (hnext s)⟩
    · obtain ⟨e, he, hi⟩ := hspans sp hsp
      obtain ⟨e1, e2, -⟩ := hpick.each e he
      exact ⟨e.1, e1, hacc e.1 e1, hi e2⟩

theorem openSpans_foldl : ∀ m : SortedMap Nat (Nat × Nat), (∀ sp ∈ spans, m.find sp.start = none) →
    spans.Pairwise (fun a b => a.start ≠ b.start) →
    mapCells (spans.foldl (fun m s => m.insert s.start (s.stop, s.redo)) m)
        = cellsOf spans + mapCells m
      ∧ ∀ k v, (spans.foldl (fun m s => m.insert s.start (s.stop, s.redo)) m).find k = some v
        ↔ (⟨k, v.1, v.2⟩ : Span) ∈ spans ∨ m.find k = some v := by
  induction spans with
  | nil =>
    intro m _ _
    exact ⟨(zero_add _).symm, fun k v => by simp⟩
  | cons sp spans ih =>
    intro m hm hp
    obtain ⟨hsp, hp⟩ := pairwise_cons.1 hp
    obtain ⟨hm0, hm⟩ := forall_mem_cons.1 hm
    have hm' : ∀ sp' ∈ spans, (m.insert sp.start (sp.stop, sp.redo)).find sp'.start = none := by
      intro sp' h'
      rw [find_insert_ne _ _ (hsp sp' h').symm]
      exact hm sp' h'
    obtain ⟨h1, h2⟩ := ih _ hm' hp
    rw [foldl_cons]
    constructor
    · rw [h1, cellsOf_cons]
      unfold mapCells
      rw [sum_insert_new _ _ _ hm0]
      show _ + (sp.cells + _) = _
      abel
    · intro k v
      rw [h2, find_insert, mem_cons]
      by_cases hk : k = sp.start
      · subst hk
        have hself : some (sp.stop, sp.redo) = some v ↔ (⟨sp.start, v.1, v.2⟩ : Span) = sp := by
          cases sp
          simp [Prod.ext_iff, eq_comm]
        rw [if_pos rfl, hm0, hself, or_comm]
        exact (or_iff_left nofun).symm
      · rw [if_neg hk]
        have hne : (⟨k, v.1, v.2⟩ : Span) ≠ sp := fun he =>
          hk (by rw [← he])
        simp [hne]

theorem pairwise_start (hne : ∀ sp ∈ spans, sp.start < sp.stop)
    (hnd : (items (cellsOf spans)).Nodup) : spans.Pairwise fun a b => a.start ≠ b.start := by
  induction spans with
  | nil => exact List.Pairwise.nil
  | cons sp spans ih =>
    rw [cellsOf_cons, items_add] at hnd
    obtain ⟨-, h2, h3⟩ := Multiset.nodup_add.1 hnd
    obtain ⟨hsp, hne⟩ := forall_mem_cons.1 hne
    refine pairwise_cons.2 ⟨fun sp' hsp' heq => ?_, ih hne h2⟩
    have hmem : sp.start ∈ items sp.cells := mem_items.2 ⟨_, mem_cells.2 ⟨le_rfl, hsp, rfl⟩⟩
    have hmem' : sp.start ∈ items (cellsOf spans) := mem_items.2 ⟨_, mem_cellsOf.2 ⟨sp', hsp',
        mem_cells.2 ⟨heq.ge, heq ▸ hne sp' hsp', rfl⟩⟩⟩
    exact Multiset.disjoint_left.1 h3 hmem hmem'

theorem openSpans_spec (hne : ∀ sp ∈ spans, sp.start < sp.stop)
    (hnd : (items (cellsOf spans)).Nodup) : mapCells (openSpans spans) = cellsOf spans
      ∧ ∀ k v, (openSpans spans).find k = some v ↔ (⟨k, v.1, v.2⟩ : Span) ∈ spans := by
  obtain ⟨h1, h2⟩ := openSpans_foldl .empty (fun _ _ => rfl) (pairwise_start hne hnd)
  exact ⟨h1.trans (add_zero _), fun k v => (h2 k v).trans (or_iff_left nofun)⟩

theorem Collected.opened (hc : Collected d log accept spans d') :
    mapCells (openSpans spans) = cellsOf spans
      ∧ ∀ k v, (openSpans spans).find k = some v ↔ (⟨k, v.1, v.2⟩ : Span) ∈ spans := by
  refine openSpans_spec (fun sp hsp => ?_) ?_
  · obtain ⟨s, -, -, hi⟩ := hc.spans sp hsp
    exact hi.nonempty
  · have hnd := hc.ledger.nodup_active
    rw [items_add] at hnd
    exact (Multiset.nodup_add.1 (Multiset.nodup_add.1 hnd).2.1).1

theorem grant_events {holder : Holder} : ∃ firstPass lastPass, (d.grant holder spans).2.events
      = d.events ++ [.grant holder d.nextBlock (spans.map range) firstPass lastPass] := ⟨_, _, rfl⟩

/-- A grant of collected spans: the cells in hand are the new block's. -/
theorem conserved_grant (h : Conserved d log) (hb : Books d') (hg : Gave d d')
    (hc : Collected d log accept spans d') {holder : Holder} (hes : Quiet es)
    (hset : e.settled = 0) (hput : e.putBack = 0) (hgr : e.granted = positions (spans.map range)) :
    Conserved (d'.grant holder spans).2 (log ++ (es ++ [e])) := by
  obtain ⟨hcells, hfind⟩ := hc.opened
  have hnew : d.blocks.find d'.nextBlock = none := by
    rw [← hg.blocks]
    exact hb.find_nextBlock
  have hheld : heldCells (d'.grant holder spans).2.blocks = cellsOf spans + heldCells d.blocks := by
    show heldCells (d'.blocks.insert d'.nextBlock ⟨holder, openSpans spans⟩) = _
    unfold heldCells
    rw [hg.blocks, sum_insert_new _ _ _ hnew, cellsOf_spans, hcells]
  have hset : settledOf (log ++ (es ++ [e])) = settledOf log := by
    rw [settledOf_append, settledOf_append, hes.settledOf_eq, settledOf_cons, hset]
    exact add_zero _
  have hput : putBackOf (log ++ (es ++ [e])) = putBackOf log := by
    rw [putBackOf_append, putBackOf_append, hes.putBackOf_eq, putBackOf_cons, hput]
    exact add_zero _
  refine ⟨?_, hc.queues, ?_, ?_, ?_⟩
  · unfold ledgerOf
    rw [hheld, hset, hput, show (d'.grant holder spans).2.cfg = _ from hg.cfg]
    exact hc.ledger
  · intro id b hf sp hsp
    have hf' : (d'.blocks.insert d'.nextBlock ⟨holder, openSpans spans⟩).find id = some b := hf
    rw [hg.blocks, find_insert] at hf'
    split at hf'
    · cases hf'
      obtain ⟨s, -, hs, hi⟩ := hc.spans sp ((hfind _ _).1 (mem_spans.1 hsp))
      exact ⟨s, hs, hi⟩
    · obtain ⟨s, hs, hi⟩ := h.held id b hf' sp hsp
      exact ⟨s, hg.length ▸ hs, hi.mono (hc.next s)⟩
  · rw [hset, ← h.totals, ← hg.totals]
    rfl
  · rw [← append_assoc]
    refine pairwise_append.2 ⟨history_append h.history
      fun e he => (hes e he).2.2, pairwise_singleton _ _, ?_⟩
    intro e he e' he' p hp hp'
    rw [mem_singleton.1 he', hgr, positions_range] at hp
    -- a granted position is held now, so it was not settled before
    have hdone : p ∈ settledOf log := by
      rcases mem_append.1 he with he | he
      · exact mem_settledOf.2 ⟨e, he, hp'⟩
      · rw [(hes e he).1] at hp'
        exact absurd hp' (Multiset.notMem_zero p)
    refine (hc.ledger.active (i := p) ?_).2 hdone
    rw [items_add]
    exact Multiset.mem_add.2 (.inr (Multiset.mem_add.2 (.inl hp)))

theorem conserved_collect (h : Conserved d log) (hg : Gave d d') (hc : Collected d log accept [] d')
    (hes : Quiet es) : Conserved d' (log ++ es) := by
  refine Conserved.quiet ⟨?_, hc.queues, ?_, ?_, h.history⟩ hes
  · have := hc.ledger
    rw [cellsOf_nil, zero_add, ← hg.blocks] at this
    rw [hg.cfg]
    exact this
  · intro id b hf sp hsp
    rw [hg.blocks] at hf
    obtain ⟨s, hs, hi⟩ := h.held id b hf sp hsp
    exact ⟨s, hg.length ▸ hs, hi.mono (hc.next s)⟩
  · rw [hg.totals]
    exact h.totals

theorem keeps_answerEmpty {holder : Holder} : Keeps d (d.answerEmpty holder accept).2 := by
  unfold answerEmpty
  split
  · exact keeps_log d (quiet_one ⟨rfl, rfl, rfl⟩)
  · split
    · exact keeps_of_eq (quiet_one ⟨rfl, rfl, rfl⟩) rfl rfl rfl rfl rfl
    · exact Keeps.refl d

theorem answerEmpty_streams (d : Dispenser) (holder : Holder) (accept : List Nat) :
    (d.answerEmpty holder accept).2.streams = d.streams := by
  unfold answerEmpty
  split
  · rfl
  · split <;> rfl

theorem keeps_claimNew (hb : Books d) {holder : Holder}
    {l : Live} (hl : d.live.find holder = some l) (wanted : Nat)
    (hfit : Fits (d.claimNew holder wanted).2.streams) : Keeps d (d.claimNew holder wanted).2 := by
  have hacc := (hb.accept holder l hl).2.2
  have hg := gave_collect d l.accept wanted
  obtain ⟨es, hes, hev⟩ := hg.events
  refine claimNew_cases (P := fun d' => Fits d'.streams → Keeps d d') hl wanted
    (fun _ => Keeps.refl d) (fun hempty hfit => ?_) (fun hfit => ?_) hfit
  · rw [answerEmpty_streams] at hfit
    refine Keeps.trans ⟨es, hev, fun log h => ?_⟩ keeps_answerEmpty
    have hc := collected hb h wanted hacc hfit
    rw [hempty] at hc
    exact conserved_collect h hg hc hes
  · obtain ⟨firstPass, lastPass, hev'⟩ := grant_events
    refine ⟨_, by rw [hev', hev, append_assoc], fun log h => ?_⟩
    exact conserved_grant h (hb.collect wanted hacc) hg
      (collected hb h wanted hacc hfit) hes rfl rfl rfl

/-- What an entry puts back, counted. -/
def countedSpans (maxRedo : Nat) (r : ReportEntry × List Span) : List Span :=
  match r.1.kind with
  | .requeue => r.2.filter fun sp => decide (sp.redo < maxRedo)
  | _ => []

def releasedSpans (r : ReportEntry × List Span) : List Span :=
  match r.1.kind with
  | .release => r.2
  | _ => []

theorem cellsOf_filter (p : Span → Bool) (spans : List Span) :
    cellsOf spans = cellsOf (spans.filter fun sp => !p sp) + cellsOf (spans.filter p) := by
  induction spans with
  | nil => rfl
  | cons sp spans ih =>
    rw [cellsOf_cons, ih, filter_cons, filter_cons]
    cases p sp <;> simp <;> abel

/-- The spans of an entry are settled, put back or given back. -/
theorem cells_entry {r : ReportEntry × List Span} : cellsOf r.2 = cellsOf (settledSpans maxRedo r)
      + cellsOf (countedSpans maxRedo r) + cellsOf (releasedSpans r) := by
  unfold settledSpans countedSpans releasedSpans
  cases r.1.kind with
  | trained | dropped | release => simp
  | requeue =>
    rw [cellsOf_nil, add_zero]
    exact cellsOf_filter _ r.2

theorem bump_cells (spans : List Span) :
    cellsOf (spans.map fun sp => { sp with redo := sp.redo + 1 }) = bump (cellsOf spans) := by
  induction spans with
  | nil => rfl
  | cons sp spans ih =>
    rw [map_cons, cellsOf_cons, cellsOf_cons, ih]
    unfold bump cells tagged
    rw [Multiset.map_add, Multiset.map_map]
    rfl

theorem cells_backOf {r : ReportEntry × List Span} :
    cellsOf (backOf maxRedo r) = cellsOf (releasedSpans r)
        + bump (cellsOf (countedSpans maxRedo r)) := by
  unfold backOf countedSpans releasedSpans
  cases r.1.kind with
  | trained | dropped => rfl
  | release => exact (add_zero _).symm
  | requeue =>
    rw [cellsOf_nil, zero_add]
    exact bump_cells _

variable {r : ReportEntry × List Span}

theorem eventOf_ledger {holder : Holder} (hc : items (cellsOf r.2) = positions r.1.ranges) :
    (eventOf maxRedo holder r).settled
        = items (cellsOf (settledSpans maxRedo r)) ∧ (eventOf maxRedo holder r).putBack
        = items (cellsOf (countedSpans maxRedo r)) := by
  unfold eventOf settledSpans countedSpans exhaustedOf
  cases hk : r.1.kind with
  | trained | dropped => exact ⟨hc.symm, rfl⟩
  | release => exact ⟨rfl, rfl⟩
  | requeue =>
    refine ⟨positions_range _, ?_⟩
    show positions r.1.ranges - positions (List.map range _) = _
    rw [← hc, positions_range, cellsOf_filter (fun sp => decide (sp.redo < maxRedo)) r.2, items_add]
    exact add_tsub_cancel_left _ _

/-- The cells a report takes out, sorted by what becomes of them, and the
log lines that say so. -/
theorem cells_removed (maxRedo : Nat) (holder : Holder) {removed : List (ReportEntry × List Span)} :
    (∀ r ∈ removed, items (cellsOf r.2) = positions r.1.ranges) →
      cellsOf (removed.flatMap Prod.snd) = cellsOf (removed.flatMap (settledSpans maxRedo))
            + (cellsOf (removed.flatMap (countedSpans maxRedo))
              + cellsOf (removed.flatMap releasedSpans))
        ∧ cellsOf (removed.flatMap (backOf maxRedo)) = cellsOf (removed.flatMap releasedSpans)
            + bump (cellsOf (removed.flatMap (countedSpans maxRedo)))
        ∧ settledOf (removed.map (eventOf maxRedo holder))
          = items (cellsOf (removed.flatMap (settledSpans maxRedo)))
        ∧ putBackOf (removed.map (eventOf maxRedo holder))
          = items (cellsOf (removed.flatMap (countedSpans maxRedo))) := by
  induction removed with
  | nil => intro _; exact ⟨rfl, rfl, rfl, rfl⟩
  | cons r removed ih =>
    intro hcov
    obtain ⟨hr, hcov⟩ := forall_mem_cons.1 hcov
    obtain ⟨i1, i2, i3, i4⟩ := ih hcov
    obtain ⟨e1, e2⟩ := eventOf_ledger hr
    simp only [flatMap_cons, cellsOf_append, items_add, map_cons]
    refine ⟨?_, ?_, by rw [settledOf_cons, e1, i3], by rw [putBackOf_cons, e2, i4]⟩
    · rw [i1, cells_entry]
      abel
    · rw [i2, cells_backOf]
      unfold bump
      rw [Multiset.map_add]
      abel

theorem Conserved.blocksOk (h : Conserved d log) : BlocksOk d.blocks := by
  intro id b hf
  refine ⟨fun k v hk => ?_, ?_⟩
  · obtain ⟨s, -, hi⟩ := h.held id b hf _ (mem_spans_of_find hk)
    exact hi.nonempty
  · have hsum : heldCells d.blocks = cellsOf b.spans + heldCells (d.blocks.erase id) :=
      sum_erase_add d.blocks _ hf
    have hnd := h.ledger.nodup_active
    dsimp only [ledgerOf] at hnd
    rw [hsum, items_add, cellsOf_spans] at hnd
    exact (Multiset.nodup_add.1 (Multiset.nodup_add.1 hnd).2.1).1

theorem card_givenOf_le {streams : List StreamState} (hlen : streams.length ≤ 256)
    (h : ∀ s < streams.length, (streams.getD s .default).next ≤ 2 ^ 40) :
    (givenOf streams).card ≤ 256 * 2 ^ 40 := by
  unfold givenOf
  rw [Multiset.card_sum]
  calc ∑ s ∈ Finset.range streams.length, (Multiset.Ico (s * 2 ^ 40)
          (s * 2 ^ 40 + (streams.getD s .default).next)).card
      ≤ ∑ s ∈ Finset.range streams.length, 2 ^ 40 := by
        refine Finset.sum_le_sum fun s hs => ?_
        rw [card_Ico]
        have := h s (Finset.mem_range.1 hs)
        omega
    _ = streams.length * 2 ^ 40 := by rw [Finset.sum_const_nat fun _ _ => rfl, Finset.card_range]
    _ ≤ 256 * 2 ^ 40 := Nat.mul_le_mul_right _ hlen

theorem Conserved.card_le (h : Conserved d log) (hb : Books d) :
    (settledOf log).card + (heldCells d.blocks).card ≤ 256 * 2 ^ 40 := by
  have hcard := congrArg Multiset.card h.ledger.balance
  dsimp only [ledgerOf] at hcard
  rw [Multiset.card_add, Multiset.card_add] at hcard
  have hgiven := card_givenOf_le hb.length_le hb.next
  have hitems : (items (heldCells d.blocks)).card
      = (heldCells d.blocks).card := Multiset.card_map _ _
  omega

theorem mem_backOf (h : sp ∈ backOf maxRedo r) :
    ∃ sp' ∈ r.2, sp.start = sp'.start ∧ sp.stop = sp'.stop := by
  unfold backOf at h
  split at h
  · cases h
  · cases h
  · exact ⟨sp, h, rfl, rfl⟩
  · obtain ⟨sp', h1, rfl⟩ := mem_map.1 h
    exact ⟨sp', (mem_filter.1 h1).1, rfl, rfl⟩

theorem mem_countedSpans (h : sp ∈ countedSpans maxRedo r) : sp.redo < maxRedo := by
  unfold countedSpans at h
  split at h
  · exact of_decide_eq_true (mem_filter.1 h).2
  · cases h

theorem quiet_blockDone (holder : Holder) (ids : List Nat) :
    Quiet (ids.map fun id => DispenseEvent.blockDone holder id) := by
  intro e he
  obtain ⟨id, -, rfl⟩ := mem_map.1 he
  exact ⟨rfl, rfl, rfl⟩

section Report

variable {holder : Holder} {removed : List (ReportEntry × List Span)} {blocks : SortedMap Nat Block}

section

variable (h : Conserved d log)
include h

theorem removed_inStream (hs : Staged d.blocks removed blocks) (hr : r ∈ removed) (hsp : sp ∈ r.2) :
    ∃ s < d.streams.length, InStream s (d.stream s).next sp := by
  obtain ⟨id, b, hf, sp₀, hsp₀, hsub⟩ := hs.parts r hr sp hsp
  obtain ⟨s, hlt, hi⟩ := h.held id b hf sp₀ hsp₀
  exact ⟨s, hlt, hsub.inStream hi⟩

theorem done_commit (hb : Books d) (hs : Staged d.blocks removed blocks) :
    (afterCommit d holder removed).totals.done = d.totals.done + (cellsOf (removed.flatMap
          (settledSpans d.cfg.maxRedo.val))).card := by
  have hcells := (cells_removed d.cfg.maxRedo.val holder hs.covers).1
  have hcard := h.card_le hb
  have hlen := hb.length_le
  rw [hs.cells, hcells, Multiset.card_add, Multiset.card_add, ← h.totals] at hcard
  have hproper : ∀ r ∈ removed, ∀ sp ∈ r.2, Proper sp := by
    intro r hr sp hsp
    obtain ⟨s, hlt, hi⟩ := removed_inStream h hs hr hsp
    exact hi.proper (by omega) (hb.next s hlt)
  exact commit_fold_done d.cfg.maxRedo.val holder removed
    ⟨d.totals, .zero, [], d.events⟩ hproper (by dsimp only; omega)

theorem ledger_report (hs : Staged d.blocks removed blocks) :
    Ledger.Ok d.cfg.maxRedo.val ⟨cellsOf (removed.flatMap (backOf d.cfg.maxRedo.val))
          + queueCells d.streams, heldCells blocks, items (cellsOf (removed.flatMap
          (settledSpans d.cfg.maxRedo.val))) + settledOf log, items (cellsOf (removed.flatMap
          (countedSpans d.cfg.maxRedo.val))) + putBackOf log, givenOf d.streams⟩ := by
  obtain ⟨c1, c2, -, -⟩ := cells_removed d.cfg.maxRedo.val ⟨0, 0⟩ hs.covers
  have hlow : ∀ x ∈ cellsOf (removed.flatMap
      (countedSpans d.cfg.maxRedo.val)), x.2 < d.cfg.maxRedo.val := by
    intro x hx
    obtain ⟨sp, hsp, hx⟩ := mem_cellsOf.1 hx
    obtain ⟨r, -, hsp⟩ := mem_flatMap.1 hsp
    rw [(mem_cells.1 hx).2.2]
    exact mem_countedSpans hsp
  have hok := h.ledger
  unfold ledgerOf at hok
  rw [hs.cells, c1, add_assoc, add_assoc] at hok
  rw [c2, add_assoc]
  exact ((hok.step .settle).step (.putBack hlow)).step .giveBack

structure Committed (d : Dispenser)
    (removed : List (ReportEntry × List Span)) (blocks : SortedMap Nat Block)
    (es : List DispenseEvent) (d' : Dispenser) : Prop where
  cfg : d'.cfg = d.cfg
  streams : d'.streams = d.streams
  held : heldCells d'.blocks = heldCells blocks
  blocks : ∀ id b, d'.blocks.find id = some b → blocks.find id = some b
  totals : d'.totals.done = d.totals.done + (cellsOf (removed.flatMap
    (settledSpans d.cfg.maxRedo.val))).card
  settled : settledOf es = Ledger.items (cellsOf (removed.flatMap (settledSpans d.cfg.maxRedo.val)))
  putBack : putBackOf es = Ledger.items (cellsOf (removed.flatMap (countedSpans d.cfg.maxRedo.val)))
  granted : ∀ e ∈ es, e.granted = 0

theorem conserved_report (hb : Books d) (hs : Staged d.blocks removed blocks)
    (hc : Committed d removed blocks es d') :
    Conserved (d'.pushFront (removed.flatMap (backOf d.cfg.maxRedo.val))) (log ++ es) := by
  have hstream : ∀ s, d'.stream s = d.stream s := by
    intro s
    unfold stream
    rw [hc.streams]
  have hback : ∀ sp ∈ removed.flatMap (backOf d.cfg.maxRedo.val),
      ∃ s < d'.streams.length, InStream s (d'.stream s).next sp := by
    intro sp hsp
    obtain ⟨r, hr, hsp⟩ := mem_flatMap.1 hsp
    obtain ⟨sp', hsp', h1, h2⟩ := mem_backOf hsp
    obtain ⟨s, hlt, hi⟩ := removed_inStream h hs hr hsp'
    rw [hc.streams]
    refine ⟨s, hlt, ?_⟩
    rw [hstream]
    exact ⟨by rw [h1]; exact hi.lower, by rw [h1, h2]; exact hi.nonempty,
      by rw [h2]; exact hi.upper⟩
  obtain ⟨hq, hcells⟩ := queues_pushFront (d := d')
    (fun s hs => by rw [hstream]; exact hb.next s (hc.streams ▸ hs))
    (fun s sp hsp => by rw [hstream] at hsp ⊢; exact h.queues s sp hsp) hback
  have hset : settledOf (log ++ es) = items (cellsOf (removed.flatMap
      (settledSpans d.cfg.maxRedo.val))) + settledOf log := by
    rw [settledOf_append, hc.settled, add_comm]
  have hput : putBackOf (log ++ es) = items (cellsOf (removed.flatMap
      (countedSpans d.cfg.maxRedo.val))) + putBackOf log := by
    rw [putBackOf_append, hc.putBack, add_comm]
  refine ⟨?_, hq, ?_, ?_, history_append h.history hc.granted⟩
  · unfold ledgerOf
    rw [hset, hput, hcells, givenOf_pushFront, hc.streams]
    show Ledger.Ok d'.cfg.maxRedo.val ⟨_, heldCells d'.blocks, _, _, _⟩
    rw [hc.held, hc.cfg]
    exact ledger_report h hs
  · intro id b hf sp hsp
    rw [length_pushFront, hc.streams]
    obtain ⟨b₀, hb₀, -, href⟩ := hs.refines id b (hc.blocks id b hf)
    obtain ⟨k₀, v₀, hk₀, hsub⟩ := href _ _ (mem_spans.1 hsp)
    obtain ⟨s, hlt, hi⟩ := h.held id b₀ hb₀ _ (mem_spans_of_find hk₀)
    refine ⟨s, hlt, ?_⟩
    rw [stream_pushFront, hstream]
    exact hsub.inStream hi
  · rw [hset, Multiset.card_add, ← h.totals]
    show d'.totals.done = (Multiset.map _ _).card + _
    rw [hc.totals, Multiset.card_map, Nat.add_comm]

end

end Report

theorem keeps_reportNew (hb : Books d) (holder : Holder) (entries : List ReportEntry) :
    Keeps d (d.reportNew holder entries).2 := by
  refine reportNew_rule (Keeps.refl d) fun {removed staged _} hst hfin => ?_
  obtain ⟨ids, hids⟩ := hfin.events
  have hquiet := quiet_blockDone holder ids
  have hev : (afterCommit d holder removed).events
      = d.events ++ removed.map (eventOf d.cfg.maxRedo.val holder) :=
    (commit_fold d.cfg.maxRedo.val holder removed _).2
  rw [hev, append_assoc] at hids
  refine ⟨_, hids, fun log h => ?_⟩
  have hs : Staged d.blocks removed (overlay d.blocks staged) :=
    staged_stageEntries entries (stagedOwn_empty d holder) h.blocksOk hst
  obtain ⟨-, -, c3, c4⟩ := cells_removed d.cfg.maxRedo.val holder hs.covers
  have hheld := heldCells_finished hfin
  refine conserved_report h hb hs ⟨hfin.cfg, hfin.streams, hheld, ?_, ?_, ?_, ?_, ?_⟩
  · intro id b hf
    rw [hfin.blocks_eq, find_filter] at hf
    exact (Option.filter_eq_some_iff.1 hf).1
  · rw [hfin.totals]
    exact done_commit h hb hs
  · rw [settledOf_append, hquiet.settledOf_eq, c3, add_zero]
  · rw [putBackOf_append, hquiet.putBackOf_eq, c4, add_zero]
  · intro e he
    rcases mem_append.1 he with he | he
    · obtain ⟨r, -, rfl⟩ := mem_map.1 he
      rfl
    · exact (hquiet e he).2.2

theorem keeps_claim (hb : Books d) (holder : Holder) (seq wanted now : Nat)
    (hfit : Fits (d.claim holder seq wanted now).2.streams) :
    Keeps d (d.claim holder seq wanted now).2 := by
  revert hfit
  refine (claim_case ..).after (P := fun d' => Fits d'.streams → Keeps d d')
    (fun _ => keeps_log d (quiet_one ⟨rfl, rfl, rfl⟩)) (fun _ => keeps_touched d holder now)
    fun l c hl hfit => ?_
  have hk := keeps_claimNew (hb.touched holder now) hl wanted hfit
  exact ((keeps_touched d holder now).trans hk).trans (keeps_remember _ holder _)

theorem keeps_report (hb : Books d) (holder : Holder) (seq : Nat) (entries : List ReportEntry)
    (now : Nat) : Keeps d (d.report holder seq entries now).2 := by
  refine (report_case ..).after (P := Keeps d) (keeps_log d (quiet_one ⟨rfl, rfl, rfl⟩))
    (keeps_touched d holder now) fun l t _ => ?_
  have hk := keeps_reportNew (hb.touched holder now) holder entries
  exact ((keeps_touched d holder now).trans hk).trans (keeps_remember _ holder _)

theorem keeps_apply (hb : Books d) (o : Op)
    (hfit : Fits (d.apply o).streams) : Keeps d (d.apply o) := by
  cases o with
  | openWith holder data accept now => exact keeps_openWith hb holder data accept now
  | claim holder seq wanted now => exact keeps_claim hb holder seq wanted now hfit
  | report holder seq entries now => exact keeps_report hb holder seq entries now
  | heartbeat holder now =>
    exact requireLive_rule (P := Keeps d)
      (keeps_log d (quiet_one ⟨rfl, rfl, rfl⟩)) (keeps_touched d holder now)
  | expire now => exact keeps_expire hb now
  | memberJoin | memberTouch | memberRetire | memberExpire => exact keeps_with_members d _

theorem conserved_fresh (cfg : DispenseConfig) (members : Members) :
    Conserved (Dispenser.withMembers cfg members) [] := by
  exact ⟨ok_empty, nofun, nofun, rfl, List.Pairwise.nil⟩

end Yeto.Dispense
