/-
What the answer to a claim means: GRANT, WAIT and END.

A claim first drains the queues of the accepted streams, then takes fresh
positions. It is granted exactly outside `Idle`, in which both give nothing.
By conservation, `Idle` with nothing held says that every position below the
pass limits is SETTLED: after an END no continuation grants one of them.
-/
import Yeto.Dispense.Proofs.Limits
import Yeto.Dispense.Proofs.Solo

namespace Yeto.Dispense

open Lib Dispenser List SortedMap Ledger

variable {c : Claim} {d' : Dispenser} {picks : List (Nat × Nat)} {l : Live} {need now p seq : Nat}
  {streams : List StreamState}

/-- The accepted streams have nothing queued and nothing fresh. -/
def Idle (d : Dispenser) (accept : List Nat) : Prop :=
  ∀ s ∈ accept, (d.stream s).queue = [] ∧ d.limit s ≤ (d.stream s).next

theorem drainQueue_eq_nil (hneed : need ≠ 0) {queue : List Span}
    (h : (drainQueue need queue).1 = []) : queue = [] := by
  cases queue with
  | nil => rfl
  | cons front queue =>
    unfold drainQueue at h
    rw [if_neg hneed] at h
    split at h <;> cases h

theorem drainStreams_eq_nil_iff {accept : List Nat} : ∀ {need : Nat}
    (streams : List StreamState), need ≠ 0 → ((drainStreams accept need streams).1 = []
      ↔ ∀ s ∈ accept, (streams.getD s .default).queue = []) := by
  induction accept with
  | nil =>
    intro need streams _
    exact iff_of_true rfl fun s hs => absurd hs not_mem_nil
  | cons s accept ih =>
    intro need streams hneed
    dsimp only [drainStreams]
    by_cases hq : (streams.getD s .default).queue = []
    · rw [hq]
      simp only [drainQueue, hneed, if_false, nil_append]
      rw [modify_clear hq, ih streams hneed, forall_mem_cons]
      exact (and_iff_right hq).symm
    · refine iff_of_false (fun hnil => ?_) fun hall =>
        hq (hall s mem_cons_self)
      split at hnil
      · exact hq (drainQueue_eq_nil hneed hnil)
      · exact hq (drainQueue_eq_nil hneed (append_eq_nil_iff.1 hnil).1)

variable {d : Dispenser}

theorem giveFresh_eq_nil_iff : (giveFresh picks d).1 = [] ↔ picks = [] := by
  cases picks with
  | nil => exact iff_of_true rfl rfl
  | cons e picks => exact iff_of_false nofun nofun

variable {accept : List Nat}

theorem picked_eq_nil_iff (hp : Picked d accept need picks) (hneed : need ≠ 0) :
    picks = [] ↔ ∀ s ∈ accept, d.limit s ≤ (d.stream s).next := by
  have htotal := hp.total
  constructor
  · intro hnil s hs
    rw [hnil] at htotal
    have hroom : ∑ s ∈ accept.toFinset, (d.limit s - (d.stream s).next) = 0 := by
      have hmin : min need (∑ s ∈ accept.toFinset, (d.limit s - (d.stream s).next)) = 0 :=
        htotal.symm
      omega
    have hzero := Finset.sum_eq_zero_iff.1 hroom s (mem_toFinset.2 hs)
    omega
  · intro hall
    cases picks with
    | nil => rfl
    | cons e picks =>
      obtain ⟨hin, hpos, hle⟩ := hp.each e mem_cons_self
      have := hall e.1 hin
      omega

variable {wanted : Nat}

theorem collect_eq_nil_iff (hwanted : wanted ≠ 0) (hacc : ∀ s ∈ accept, s < d.streams.length) :
    (d.collect accept wanted).1 = [] ↔ Idle d accept := by
  rw [collect_eq]
  rw [append_eq_nil_iff, giveFresh_eq_nil_iff, drainStreams_eq_nil_iff d.streams hwanted]
  have hpicks : (∀ s ∈ accept, (d.streams.getD s .default).queue = []) →
      (picksOf d accept wanted = [] ↔ ∀ s ∈ accept, d.limit s ≤ (d.stream s).next) := by
    intro hq
    have hneed : (drainStreams accept wanted d.streams).2.2 ≠ 0 := by
      rw [drainStreams_idle accept d.streams hwanted hq]
      exact hwanted
    rw [picked_eq_nil_iff (picked_picksOf wanted hacc) hneed]
    simp only [next_afterDrain, limit_afterDrain]
  constructor
  · intro hboth s hs
    exact ⟨hboth.1 s hs, (hpicks hboth.1).1 hboth.2 s hs⟩
  · intro hidle
    have hq : ∀ s ∈ accept, (d.streams.getD s .default).queue = [] := fun s hs => (hidle s hs).1
    exact ⟨hq, (hpicks hq).2 fun s hs => (hidle s hs).2⟩

/-- The answer to a new claim of an allowed size. -/
inductive AnswerCase (d : Dispenser) (accept : List Nat) (wanted : Nat) : Claim → Prop
  | granted : ¬ Idle d accept → AnswerCase d accept wanted
      (.grant d.nextBlock ((d.collect accept wanted).1.map Span.range))
  | wait : Idle d accept → d.holdsAny accept = true → AnswerCase d accept wanted .wait
  | ended : Idle d accept → d.holdsAny accept = false → AnswerCase d accept wanted .ended

variable {holder : Holder}

theorem answerEmpty_case (hex : accept.all d.exhausted = true) : (d.answerEmpty holder accept).1
      = if d.holdsAny accept then .wait else .ended := by
  unfold answerEmpty
  rw [hex, Bool.true_and]
  cases d.holdsAny accept with
  | false => rfl
  | true =>
    simp only [Bool.not_true, Bool.false_eq_true, if_false, if_true]
    split <;> rfl

theorem claimNew_answer (hb : Books d) (hl : d.live.find holder = some l)
    (hw : 0 < wanted ∧ wanted ≤ d.cfg.maxBlock.val) : ∃ c d', d.claimNew holder wanted = (.ok c, d')
      ∧ AnswerCase d l.accept wanted c := by
  have hacc := (hb.accept holder l hl).2.2
  have hg := gave_collect d l.accept wanted
  have hnil := collect_eq_nil_iff (Nat.ne_of_gt hw.1) hacc
  obtain ⟨a, ha, hdef⟩ := claimNew_allowed holder hw
  rw [acceptOf_eq hl] at hdef
  refine ⟨a.1, a.2, ha, ?_⟩
  by_cases hidle : Idle d l.accept
  · rw [hnil.2 hidle, isEmpty_nil, if_pos rfl] at hdef
    have hex : l.accept.all (d.collect l.accept wanted).2.exhausted = true := by
      refine all_eq_true.2 fun s hs => decide_eq_true ?_
      rw [limit_congr hg.cfg hg.data, (next_collect wanted hacc s).1]
      exact (hidle s hs).2.trans (Nat.le_add_right _ _)
    have hholds : (d.collect l.accept wanted).2.holdsAny l.accept = d.holdsAny l.accept := by
      unfold holdsAny
      rw [hg.blocks]
    have hans : ((d.collect l.accept wanted).2.answerEmpty holder
        l.accept).1 = _ := answerEmpty_case hex
    rw [← hdef, hholds] at hans
    rw [hans]
    cases hany : d.holdsAny l.accept with
    | true => exact .wait hidle hany
    | false => exact .ended hidle hany
  · have hne : (d.collect l.accept wanted).1.isEmpty = false := by
      rw [Bool.eq_false_iff]
      intro hempty
      exact hidle (hnil.1 (isEmpty_iff.1 hempty))
    rw [hne, if_neg Bool.false_ne_true] at hdef
    have hid : a.1 = .grant d.nextBlock ((d.collect l.accept wanted).1.map Span.range) := by
      rw [hdef]
      unfold grant
      rw [hg.nextBlock]
    rw [hid]
    exact .granted hidle

/-- The positions that can be given out of the accepted streams: queued
ones, and fresh ones below the pass limit. -/
def available (d : Dispenser) (accept : List Nat) : Nat :=
  ∑ s ∈ accept.toFinset, ((cellsOf (d.stream s).queue).card + (d.limit s - (d.stream s).next))

theorem card_queueCells : (queueCells streams).card = ∑ s ∈ Finset.range streams.length,
      (cellsOf (streams.getD s .default).queue).card := by exact map_sum Multiset.cardHom _ _

theorem card_drained {r : List Span × List StreamState × Nat} (h : Drained accept need streams r)
    (hacc : ∀ s ∈ accept, s < streams.length) :
    ∑ s ∈ accept.toFinset, (cellsOf (streams.getD s .default).queue).card
      = (cellsOf r.1).card + ∑ s ∈ accept.toFinset,
        (cellsOf (r.2.1.getD s .default).queue).card := by
  have hsub : accept.toFinset ⊆ Finset.range streams.length := fun s hs =>
    Finset.mem_range.2 (hacc s (mem_toFinset.1 hs))
  have hall := congrArg Multiset.card h.cells
  rw [Multiset.card_add, card_queueCells, card_queueCells, h.length,
    ← Finset.sum_sdiff hsub, ← Finset.sum_sdiff hsub] at hall
  have hother : ∑ s ∈ Finset.range streams.length \ accept.toFinset,
      (cellsOf (r.2.1.getD s .default).queue).card
      = ∑ s ∈ Finset.range streams.length \ accept.toFinset,
        (cellsOf (streams.getD s .default).queue).card := by
    refine Finset.sum_congr rfl fun s hs => ?_
    rw [h.other s fun hin => (Finset.mem_sdiff.1 hs).2 (mem_toFinset.2 hin)]
  omega

theorem card_freshOf : (freshOf d picks).card = (picks.map Prod.snd).sum := by
  unfold freshOf
  induction picks with
  | nil => rfl
  | cons e picks ih =>
    rw [map_cons, sum_cons, Multiset.card_add, ih, map_cons,
      sum_cons, card_Ico, Nat.add_sub_cancel_left]

theorem card_collect {log : List DispenseEvent} (hb : Books d) (hc : Conserved d log)
    (hacc : ∀ s ∈ accept, s < d.streams.length) (hfit : Fits (d.collect accept wanted).2.streams) :
    (cellsOf (d.collect accept wanted).1).card = min wanted (available d accept) := by
  have hD := drainStreams_spec accept wanted d.streams hacc (hc.queuesProper hb)
  have hp := picked_picksOf wanted hacc
  have hfresh := congrArg Multiset.card
    (cells_giveFresh hp.distinct (picksOf_lt wanted hacc) hfit).1
  have hroom : ∑ s ∈ accept.toFinset, ((afterDrain d accept wanted).limit s
      - ((afterDrain d accept wanted).stream s).next)
      = ∑ s ∈ accept.toFinset, (d.limit s - (d.stream s).next) := by
    refine Finset.sum_congr rfl fun s _ => ?_
    rw [limit_afterDrain, next_afterDrain]
  rw [Multiset.card_map, card_freshOf, hp.total, hroom] at hfresh
  have hqueue := card_drained hD hacc
  have havail : available d accept
      = ∑ s ∈ accept.toFinset, (cellsOf (d.streams.getD s .default).queue).card
        + ∑ s ∈ accept.toFinset, (d.limit s - (d.stream s).next) := Finset.sum_add_distrib
  rw [collect_eq]
  rw [cellsOf_append, Multiset.card_add, hfresh, havail, hqueue]
  have hcount := hD.count
  by_cases hneed : (drainStreams accept wanted d.streams).2.2 = 0
  · omega
  have hrest : ∑ s ∈ accept.toFinset, (cellsOf ((drainStreams accept wanted
      d.streams).2.1.getD s .default).queue).card = 0 := by
    refine Finset.sum_eq_zero fun s hs => ?_
    rw [hD.empty hneed s (mem_toFinset.1 hs)]
    rfl
  omega

/-- Some block has an unreported position of an accepted stream. -/
def Held (d : Dispenser) (accept : List Nat) : Prop :=
  ∃ id b p, d.blocks.find id = some b ∧ b.Holds p ∧ streamOf p ∈ accept

/-- Every position of the accepted streams below the pass limits is
settled. -/
def AllSettled (d : Dispenser) (log : List DispenseEvent) (accept : List Nat) : Prop :=
  ∀ s ∈ accept, ∀ k < d.limit s, positionOf s k ∈ settledOf log

theorem holdsAny_iff : d.holdsAny accept = true ↔ ∃ id b, d.blocks.find id = some b
      ∧ ∃ sp ∈ b.spans, streamOf sp.start ∈ accept := by
  unfold holdsAny
  rw [any_eq_true]
  constructor
  · rintro ⟨b, hb, hany⟩
    obtain ⟨id, hf⟩ := (mem_values_iff _ _).1 hb
    obtain ⟨start, hstart, hin⟩ := any_eq_true.1 hany
    obtain ⟨v, hv⟩ := (mem_keys_iff _ _).1 hstart
    refine ⟨id, b, hf, ⟨start, v.1, v.2⟩, ?_, contains_iff_mem.1 hin⟩
    exact mem_map.2 ⟨(start, v), (mem_entries_iff _ _ _).2 hv, rfl⟩
  · rintro ⟨id, b, hf, sp, hsp, hin⟩
    obtain ⟨e, he, rfl⟩ := mem_map.1 hsp
    refine ⟨b, (mem_values_iff _ _).2 ⟨id, hf⟩, any_eq_true.2 ⟨e.1, ?_, contains_iff_mem.2 hin⟩⟩
    exact (mem_keys_iff _ _).2 ⟨e.2, (mem_entries_iff _ _ _).1 he⟩

section Settled

variable {log : List DispenseEvent}

theorem holdsAny_iff_held (hc : Conserved d log) (hb : Books d) :
    d.holdsAny accept = true ↔ Held d accept := by
  rw [holdsAny_iff]
  constructor
  · rintro ⟨id, b, hf, sp, hsp, hin⟩
    obtain ⟨s, -, hi⟩ := hc.held id b hf sp hsp
    exact ⟨id, b, sp.start, hf, ⟨sp, hsp, le_rfl, hi.nonempty⟩, hin⟩
  · rintro ⟨id, b, p, hf, hholds, hin⟩
    obtain ⟨sp, hsp, h1, h2⟩ := hholds
    obtain ⟨s, hs, hi⟩ := hc.held id b hf sp hsp
    refine ⟨id, b, hf, sp, hsp, ?_⟩
    rw [hi.streamOf_eq (hb.next s hs)]
    rwa [hi.streamOf_mem (hb.next s hs) h1 h2] at hin

theorem mem_queuedPositions : p ∈ queuedPositions d ↔
    ∃ s < d.streams.length, ∃ sp ∈ (d.stream s).queue, sp.start ≤ p ∧ p < sp.stop := by
  unfold queuedPositions
  rw [mem_items]
  constructor
  · rintro ⟨r, hr⟩
    obtain ⟨s, hs, hmem⟩ := mem_sum_range.1 hr
    obtain ⟨sp, hsp, hx⟩ := mem_cellsOf.1 hmem
    obtain ⟨h1, h2, -⟩ := mem_cells.1 hx
    exact ⟨s, hs, sp, hsp, h1, h2⟩
  · rintro ⟨s, hs, sp, hsp, h1, h2⟩
    exact ⟨sp.redo, mem_sum_range.2 ⟨s, hs, mem_cellsOf.2 ⟨sp, hsp, mem_cells.2 ⟨h1, h2, rfl⟩⟩⟩⟩

theorem mem_openPositions : p ∈ openPositions d ↔
    ∃ id b, d.blocks.find id = some b ∧ b.Holds p := by
  unfold openPositions heldCells
  simp only [mem_items, mem_sum]
  constructor
  · rintro ⟨r, id, b, hf, hr⟩
    exact ⟨id, b, hf, mem_items_spans.2 (mem_items.2 ⟨r, hr⟩)⟩
  · rintro ⟨id, b, hf, hp⟩
    obtain ⟨r, hr⟩ := mem_items.1 (mem_items_spans.1 hp)
    exact ⟨r, id, b, hf, hr⟩

theorem streamOf_position {s k : Nat} (hk : k < 2 ^ 40) : streamOf (positionOf s k) = s := by
  rw [positionOf_eq hk, streamOf_eq]
  exact Nat.div_eq_of_lt_le (by omega) (by omega)

/-- Nothing to give and nothing held: all is settled, and conversely. -/
theorem idle_iff_allSettled (hc : Conserved d log) (hb : Books d)
    (hbelow : Below d) (hacc : ∀ s ∈ accept, s < d.streams.length) :
    Idle d accept ∧ ¬ Held d accept ↔ AllSettled d log accept := by
  have hbal : queuedPositions d + openPositions d + settledOf log
      = givenOf d.streams := hc.ledger.balance
  have hnd : (queuedPositions d + openPositions d + settledOf log).Nodup := by
    rw [hbal]
    exact hc.ledger.nodup
  have hdis := (Multiset.nodup_add.1 hnd).2.2
  have hlim := limit_le d
  constructor
  · intro h s hs k hk
    obtain ⟨hidle, hheld⟩ := h
    have hk40 : k < 2 ^ 40 := lt_of_lt_of_le hk (hlim s)
    have hstream := streamOf_position (s := s) hk40
    have hgiven : positionOf s k ∈ givenOf d.streams := by
      have hlt : k < (d.stream s).next := lt_of_lt_of_le hk (hidle s hs).2
      rw [mem_givenOf, positionOf_eq hk40]
      unfold stream at hlt
      exact ⟨s, hacc s hs, by omega, by omega⟩
    rw [← hbal, Multiset.mem_add, Multiset.mem_add] at hgiven
    rcases hgiven with (hq | ho) | hset
    · obtain ⟨t, ht, sp, hsp, h1, h2⟩ := mem_queuedPositions.1 hq
      have hi := hc.queues t sp hsp
      rw [hi.streamOf_mem (hb.next t ht) h1 h2] at hstream
      subst hstream
      rw [(hidle t hs).1] at hsp
      cases hsp
    · obtain ⟨id, b, hf, hholds⟩ := mem_openPositions.1 ho
      exact absurd ⟨id, b, _, hf, hholds, hstream.symm ▸ hs⟩ hheld
    · exact hset
  · intro hall
    -- a settled position is neither queued nor open, and it was given out
    have hfree : ∀ p, streamOf p ∈ accept → p ∉ queuedPositions d + openPositions d := by
      intro p hp hmem
      have hgiven : p ∈ givenOf d.streams := by
        rw [← hbal]
        exact Multiset.mem_add.2 (.inl hmem)
      obtain ⟨s, hs, h1, h2⟩ := mem_givenOf.1 hgiven
      have hle : (d.streams.getD s .default).next ≤ d.limit s := hbelow s
      have hs40 := hlim s
      have hst : streamOf p = s := by
        rw [streamOf_eq]
        exact Nat.div_eq_of_lt_le (by omega) (by omega)
      rw [hst] at hp
      have hset := hall s hp (p - s * 2 ^ 40) (by omega)
      rw [positionOf_eq (by omega), Nat.add_sub_cancel' h1] at hset
      exact Multiset.disjoint_left.1 hdis hmem hset
    refine ⟨fun s hs => ⟨?_, ?_⟩, fun hheld => ?_⟩
    · cases hq : (d.stream s).queue with
      | nil => rfl
      | cons sp rest =>
        have hsp : sp ∈ (d.stream s).queue := hq ▸ mem_cons_self
        have hi := hc.queues s sp hsp
        refine absurd (Multiset.mem_add.2 (.inl (mem_queuedPositions.2
          ⟨s, hacc s hs, sp, hsp, le_rfl, hi.nonempty⟩))) (hfree sp.start ?_)
        rw [hi.streamOf_eq (hb.next s (hacc s hs))]
        exact hs
    · by_contra hlt
      have hset := hall s hs (d.stream s).next (not_le.1 hlt)
      have hs40 := hlim s
      have hgiven : positionOf s (d.stream s).next ∈ givenOf d.streams := by
        rw [← hbal]
        exact Multiset.mem_add.2 (.inr hset)
      rw [positionOf_eq (by omega)] at hgiven
      obtain ⟨t, ht, h1, h2⟩ := mem_givenOf.1 hgiven
      have ht40 := hb.next t ht
      unfold stream at hlt hs40 ht40 h1 h2
      have hst : s = t := by omega
      subst hst
      omega
    · obtain ⟨id, b, p, hf, hholds, hin⟩ := hheld
      exact hfree p hin (Multiset.mem_add.2 (.inr (mem_openPositions.2 ⟨id, b, hf, hholds⟩)))

theorem idle_iff_available (hc : Conserved d log) : Idle d accept ↔ available d accept = 0 := by
  have hqueue : ∀ s, (cellsOf (d.stream s).queue).card = 0 ↔ (d.stream s).queue = [] := by
    intro s
    constructor
    · intro hzero
      cases hq : (d.stream s).queue with
      | nil => rfl
      | cons sp rest =>
        have hi := hc.queues s sp (hq ▸ mem_cons_self)
        have hin : (sp.start, sp.redo) ∈ cellsOf (d.stream s).queue :=
          mem_cellsOf.2 ⟨sp, hq ▸ mem_cons_self, mem_cells.2 ⟨le_rfl, hi.nonempty, rfl⟩⟩
        rw [Multiset.card_eq_zero.1 hzero] at hin
        exact absurd hin (Multiset.notMem_zero _)
    · intro hq
      rw [hq]
      rfl
  unfold Idle available
  rw [Finset.sum_eq_zero_iff]
  simp only [mem_toFinset, Nat.add_eq_zero_iff, hqueue, Nat.sub_eq_zero_iff_le]

end Settled

/-- What an answer to a new claim says about the state it was made in. -/
structure AnswerSound (d : Dispenser) (log : List DispenseEvent)
    (accept : List Nat) (wanted : Nat) (c : Claim) : Prop where
  /-- A grant: exactly when an accepted stream has a queued position or a
  fresh one below its limit. -/
  grant_iff : (∃ id ranges, c = .grant id ranges) ↔ ∃ s ∈ accept,
    (∃ sp ∈ (d.stream s).queue, ∃ p, sp.start ≤ p ∧ p < sp.stop) ∨ (d.stream s).next < d.limit s
  /-- It gives what was asked for, or all there is, of accepted streams. -/
  granted : ∀ id ranges, c = .grant id ranges → (positions ranges).Nodup
    ∧ (positions ranges).card = min wanted (available d accept)
    ∧ ∀ p ∈ positions ranges, streamOf p ∈ accept
  /-- WAIT: nothing to give, and a live holder has a position of an
  accepted stream. -/
  wait_iff : c = .wait ↔ available d accept = 0
    ∧ ∃ id b p, d.blocks.find id = some b ∧ d.live.contains b.holder = true
      ∧ b.Holds p ∧ streamOf p ∈ accept
  /-- END: every position below the limits is settled. -/
  ended_iff : c = .ended ↔ AllSettled d log accept

def NeverGrants (w : World) (accept : List Nat) : Prop := ∀ w', Relation.ReflTransGen Onward w w' →
    ∀ holder seq wanted now id ranges d', Op.Roomy w'.disp (.claim holder seq wanted now) →
      w'.disp.claim holder seq wanted now = (.ok (.grant id ranges), d') →
      ∀ p ∈ positions ranges, streamOf p ∉ accept

theorem answerSound {log : List DispenseEvent} (hb : Books d) (hc : Conserved d log)
    (hbelow : Below d) (hacc : ∀ s ∈ accept, s < d.streams.length)
    (hfit : Fits (d.collect accept wanted).2.streams) (h : AnswerCase d accept wanted c) :
    AnswerSound d log accept wanted c := by
  have hidle : Idle d accept ↔ available d accept = 0 := idle_iff_available hc
  have hgive : ¬ Idle d accept ↔ ∃ s ∈ accept,
      (∃ sp ∈ (d.stream s).queue, ∃ p, sp.start ≤ p ∧ p < sp.stop)
        ∨ (d.stream s).next < d.limit s := by
    unfold Idle
    push Not
    refine exists_congr fun s => and_congr_right fun _ => ?_
    by_cases hq : (d.stream s).queue = []
    · simp [hq]
    · refine iff_of_true (fun h => absurd h hq) (.inl ?_)
      obtain ⟨sp, hsp⟩ := exists_mem_of_ne_nil _ hq
      exact ⟨sp, hsp, sp.start, le_rfl, (hc.queues s sp hsp).nonempty⟩
  have hheld : (∃ id b p, d.blocks.find id = some b
      ∧ d.live.contains b.holder = true ∧ b.Holds p ∧ streamOf p ∈ accept)
        ↔ d.holdsAny accept = true := by
    rw [holdsAny_iff_held hc hb]
    constructor
    · rintro ⟨id, b, p, hf, -, hholds, hin⟩
      exact ⟨id, b, p, hf, hholds, hin⟩
    · rintro ⟨id, b, p, hf, hholds, hin⟩
      obtain ⟨l, hl, -⟩ := hb.owner id b hf
      exact ⟨id, b, p, hf, (contains_iff _ _).2 ⟨l, hl⟩, hholds, hin⟩
  have hend := idle_iff_allSettled hc hb hbelow hacc
  rw [← holdsAny_iff_held hc hb] at hend
  cases h with
  | granted hnot =>
    refine ⟨iff_of_true ⟨_, _, rfl⟩ (hgive.1 hnot), ?_, ?_, ?_⟩
    · intro id ranges heq
      obtain ⟨-, rfl⟩ := Claim.grant.inj heq
      have hcol := collected hb hc wanted hacc hfit
      have hnext := (grows_collect wanted hacc).capped
      rw [positions_range]
      refine ⟨?_, ?_, fun p hp => ?_⟩
      · have hnd := (Multiset.nodup_add.1 hcol.ledger.nodup_active).2.1
        rw [items_add] at hnd
        exact (Multiset.nodup_add.1 hnd).1
      · unfold items
        rw [Multiset.card_map]
        exact card_collect hb hc hacc hfit
      · obtain ⟨r, hr⟩ := mem_items.1 hp
        obtain ⟨sp, hsp, hx⟩ := mem_cellsOf.1 hr
        obtain ⟨h1, h2, -⟩ := mem_cells.1 hx
        obtain ⟨s, hs, -, hi⟩ := hcol.spans sp hsp
        have hle := (hnext s (hbelow s)).trans (limit_le _ s)
        rw [hi.streamOf_mem hle h1 h2]
        exact hs
    · exact iff_of_false nofun fun h => hnot (hidle.2 h.1)
    · exact iff_of_false nofun fun h => hnot (hend.2 h).1
  | wait hyes hany =>
    refine ⟨iff_of_false ?_ (fun h => hgive.2 h hyes), nofun,
      iff_of_true rfl ⟨hidle.1 hyes, hheld.2 hany⟩, iff_of_false nofun fun h => (hend.2 h).2 hany⟩
    rintro ⟨_, _, ⟨⟩⟩
  | ended hyes hnone =>
    have hno : ¬ d.holdsAny accept = true := by
      rw [hnone]
      exact Bool.false_ne_true
    refine ⟨iff_of_false ?_ (fun h => hgive.2 h hyes), nofun,
      iff_of_false nofun fun h => hno (hheld.1 h.2), iff_of_true rfl (hend.1 ⟨hyes, hno⟩)⟩
    rintro ⟨_, _, ⟨⟩⟩

section Runs

variable {cfg : DispenseConfig} {lease : Nat} {w : World}

theorem streams_claimNew (hl : d.live.find holder = some l)
    (hw : 0 < wanted ∧ wanted ≤ d.cfg.maxBlock.val) (h : d.claimNew holder wanted = (.ok c, d')) :
    d'.streams = (d.collect l.accept wanted).2.streams := by
  obtain ⟨a, ha, hdef⟩ := claimNew_allowed holder hw
  rw [acceptOf_eq hl] at hdef
  rw [ha] at h
  rw [← (Prod.mk.inj h).2, hdef]
  split
  · exact answerEmpty_streams _ _ _
  · rfl

theorem claim_answer (hb : Books d) (hl : d.live.find holder = some l) (hnew : l.Newer seq)
    (h : d.claim holder seq wanted now = (.ok c, d')) :
    AnswerCase (touched d holder now) l.accept wanted c ∧ d'.streams
      = ((touched d holder now).collect l.accept wanted).2.streams := by
  have hcase := claim_case d holder seq wanted now
  rw [h] at hcase
  cases hcase with
  | replayed l₁ c _ hl₁ hlast =>
    obtain rfl := Option.some.inj (hl.symm.trans hl₁)
    exact absurd (hnew seq _ hlast) (lt_irrefl seq)
  | new l₁ c d₁ _ _ _ hcl =>
    have hw := claimNew_size hcl
    obtain ⟨c', d₂, heq, hans⟩ := claimNew_answer (hb.touched holder now) hl hw
    rw [hcl] at heq
    obtain rfl := Except.ok.inj (Prod.mk.inj heq).1
    have hstreams := streams_claimNew (d := touched d holder now) hl hw hcl
    exact ⟨hans, hstreams⟩

theorem granted_below (hr : (runs cfg lease).Reachable w) (hfit : Fits w.disp.streams) {id : Nat}
    {ranges : List (Nat × Nat)} (hroomy : Op.Roomy w.disp (.claim holder seq wanted now))
    (hclaim : w.disp.claim holder seq wanted now = (.ok (.grant id ranges), d'))
    (hp : p ∈ positions ranges) : p ∉ settledOf w.log
      ∧ ∃ k < d'.limit (streamOf p), p = positionOf (streamOf p) k := by
  have hok := worldOk_reachable hr
  have hd' : w.disp.apply (.claim holder seq wanted now) = d' := congrArg Prod.snd hclaim
  have hstep : (runs cfg lease).Reachable { w with disp := d' } := by
    rw [← hd']
    exact hr.step (World.Step.op w _)
  have hbelow := below_reachable hr
  have hfit' : Fits d'.streams := hd' ▸ fits_apply hok.books hbelow hfit hroomy
  obtain ⟨b, hf, hall⟩ := granted_open hr hclaim hfit'
  obtain ⟨⟨sp, hsp, h1, h2⟩, hnot⟩ := hall p hp
  have hok' := worldOk_reachable hstep
  obtain ⟨s, hs, hi⟩ := (hok'.conserved hfit').held id b hf sp hsp
  have hnext : (d'.stream s).next ≤ 2 ^ 40 := hok'.books.next s hs
  have hlimit : (d'.stream s).next ≤ d'.limit s := below_reachable hstep s
  have hupper : sp.stop ≤ s * 2 ^ 40 + (d'.stream s).next := hi.upper
  have hlower := hi.lower
  refine ⟨hnot, p - s * 2 ^ 40, ?_⟩
  rw [hi.streamOf_mem hnext h1 h2, positionOf_eq (by omega)]
  exact ⟨by omega, by omega⟩

/-- A new claim answered END: every position of the holder's streams is
settled. -/
theorem claim_ended (hr : (runs cfg lease).Reachable w) (hfit : Fits w.disp.streams)
    (hl : w.disp.live.find holder = some l) (hnew : l.Newer seq)
    (hclaim : (w.disp.claim holder seq wanted now).1 = .ok .ended) :
    AllSettled w.disp w.log l.accept := by
  have hok := worldOk_reachable hr
  have hc := hok.conserved hfit
  have hacc := (hok.books.accept holder l hl).2.2
  have hans := (claim_answer hok.books hl hnew (Prod.ext hclaim rfl)).1
  cases hans with
  | ended hidle hnone =>
    refine (idle_iff_allSettled hc hok.books (below_reachable hr) hacc).1 ⟨hidle, fun hheld => ?_⟩
    have hany : w.disp.holdsAny l.accept = false := hnone
    rw [(holdsAny_iff_held hc hok.books).2 hheld] at hany
    cases hany

theorem neverGrants {w₁ : World} (hr₁ : (runs cfg lease).Reachable w₁)
    (hfit₁ : Fits w₁.disp.streams) (hall : AllSettled w₁.disp w₁.log accept)
    (hacc : ∀ s ∈ accept, s < w₁.disp.streams.length) : NeverGrants w₁ accept := by
  intro w' hcont holder seq wanted now id ranges d' hroomy hclaim p hp hin
  obtain ⟨hr', hc⟩ := continued hr₁ hfit₁ hcont
  obtain ⟨hnot, k, hk, hpos⟩ := granted_below hr' hc.fits hroomy hclaim hp
  have hg := grows_apply (worldOk_reachable hr').books (.claim holder seq wanted now)
  have hd' : w'.disp.apply (.claim holder seq wanted now) = d' := congrArg Prod.snd hclaim
  rw [hd'] at hg
  have hdata : d'.limit (streamOf p) = w₁.disp.limit (streamOf p) := by
    cases hd : w₁.disp.data with
    | none =>
      have hlen := hacc _ hin
      rw [((worldOk_reachable hr₁).books.nodata hd).1] at hlen
      exact absurd hlen (Nat.not_lt_zero _)
    | some decl =>
      exact limit_congr (hg.cfg.trans hc.cfg) ((hg.data decl (hc.data decl hd)).trans hd.symm) _
  rw [hdata] at hk
  have hset := hall _ hin k hk
  rw [← hpos] at hset
  exact hnot (hc.settled p hset)

/-- The answers to new claims are sound in every state of a run without a
full odd stream, for claims that cannot fill one; and END is final. -/
theorem answers_sound (hr : (runs cfg lease).Reachable w)
    (hfit : Fits w.disp.streams) {holder : Holder} {l : Live}
    (hlease : Leased w.disp holder) (hl : w.disp.live.find holder = some l)
    {seq wanted : Nat} (hnew : l.Newer seq)
    (hw : 0 < wanted ∧ wanted ≤ w.disp.cfg.maxBlock.val) (now : Nat)
    (hroomy : Op.Roomy w.disp (.claim holder seq wanted now)) :
    ∃ c d', w.disp.claim holder seq wanted now = (.ok c, d')
      ∧ AnswerSound w.disp w.log l.accept wanted c
      ∧ (c = .ended → NeverGrants { w with disp := d' } l.accept) := by
  have hok := worldOk_reachable hr
  have hbelow := below_reachable hr
  have hc := hok.conserved hfit
  have hacc := (hok.books.accept holder l hl).2.2
  have hreach : (runs cfg lease).Reachable
      { w with disp := w.disp.apply (.claim holder seq wanted now) } := hr.step (World.Step.op w _)
  have hfit' := fits_apply hok.books hbelow hfit hroomy
  have hg := grows_apply hok.books (.claim holder seq wanted now)
  obtain ⟨es, he, -⟩ := keeps_apply hok.books _ hfit'
  have happly : w.disp.apply (.claim holder seq wanted now)
      = (w.disp.claim holder seq wanted now).2 := rfl
  rw [happly] at hreach hfit' hg he
  have hcase := claim_case w.disp holder seq wanted now
  rcases hres : w.disp.claim holder seq wanted now with ⟨res, d'⟩
  rw [hres] at hcase hreach hfit' hg he
  cases res with
  | error e =>
    cases hcase with
    | fenced m hno => exact absurd hlease hno
    | stale l₁ m _ hl₁ hold =>
      obtain rfl := Option.some.inj (hl.symm.trans hl₁)
      exact absurd hnew hold
    | refused l₁ _ _ _ _ hfail =>
      have hsize : wanted = 0 ∨ wanted > w.disp.cfg.maxBlock.val := (claimNew_error hfail).1
      omega
  | ok c =>
    obtain ⟨hans, hstreams⟩ := claim_answer hok.books hl hnew hres
    have hfit'' : Fits ((touched w.disp holder now).collect l.accept
        wanted).2.streams := hstreams ▸ hfit'
    have hct : Conserved (touched w.disp holder now) w.log := { hc with }
    have hsound := answerSound (hok.books.touched holder now) hct hbelow hacc hfit'' hans
    refine ⟨c, _, rfl, { hsound with }, fun hend => ?_⟩
    refine neverGrants hreach hfit' (fun s hs k hk => ?_)
      fun s hs => lt_of_lt_of_le (hacc s hs) hg.length
    have hin : s ∈ w.disp.acceptOf holder := (acceptOf_eq hl).symm ▸ hs
    rw [limit_of_accept hok.books hg hin] at hk
    have hset := hsound.ended_iff.1 hend s hs k hk
    show positionOf s k ∈ settledOf (w.before ++ _)
    rw [he, ← append_assoc, settledOf_append]
    exact Multiset.mem_add.2 (.inl hset)

end Runs

theorem sampleWorld_fits : Fits sampleWorld.disp.streams := by
  unfold Fits
  decide +kernel

theorem sampleWorld_roomy : Op.Roomy sampleWorld.disp (.claim ⟨0, 7⟩ 3 2 3) := by
  intro s hodd htakes
  have haccept : sampleWorld.disp.acceptOf ⟨0, 7⟩ = [0, 1] := by decide +kernel
  have hin : s ∈ sampleWorld.disp.acceptOf ⟨0, 7⟩ := by
    by_contra hnot
    exact htakes (if_neg hnot)
  rw [haccept] at hin
  obtain rfl : s = 1 := by
    simp only [mem_cons, not_mem_nil, or_false] at hin
    omega
  exact .inl (by decide +kernel)

theorem answers_sound_sample : ∃ l c d', sampleWorld.disp.live.find ⟨0, 7⟩ = some l
      ∧ sampleWorld.disp.claim ⟨0, 7⟩ 3 2 3 = (.ok c, d')
      ∧ AnswerSound sampleWorld.disp sampleWorld.log l.accept 2 c := by
  obtain ⟨l, hl, hnew⟩ := sampleWorld_live
  have hlease : Leased sampleWorld.disp ⟨0, 7⟩ := by
    unfold Leased
    decide +kernel
  have hreach := reachable_after (reachable_start sampleConfig 10) sampleOps
  have hsize : 0 < 2 ∧ 2 ≤ sampleWorld.disp.cfg.maxBlock.val := by decide +kernel
  obtain ⟨c, d', hclaim, hsound, -⟩ := answers_sound hreach sampleWorld_fits
    hlease hl hnew hsize 3 sampleWorld_roomy
  exact ⟨l, c, d', hl, hclaim, hsound⟩

def oddConfig : DispenseConfig := ⟨10, none, 1, 2147483648⟩

def oddStart : World := (startWorld oddConfig 10).after [.openWith ⟨0, 7⟩ sampleData (some [1]) 0]

/-- After `n` claims of `2 ^ 31` positions; the 512th fills the stream. -/
def oddWorld (n : Nat) : World := oddStart.after (claims ⟨0, 7⟩ 0 (2 ^ 31) 0 n)

theorem oddStart_solo : Solo ⟨0, 7⟩ 1 0 oddStart.disp := by
  have hok := worldOk_reachable (reachable_after (reachable_start oddConfig 10)
      [.openWith ⟨0, 7⟩ sampleData (some [1]) 0])
  refine ⟨hok.books, ⟨by decide +kernel, by decide +kernel⟩,
    ⟨⟨.empty, false, none, [1]⟩, rfl, rfl, fun n a hlast => ?_⟩, by decide +kernel⟩
  cases hlast

theorem oddWorld_took (n : Nat) (hn : n ≤ 512) : Solo ⟨0, 7⟩ 1 n (oddWorld n).disp
      ∧ Took ⟨0, 7⟩ 1 n (2 ^ 31) oddStart.disp (oddWorld n).disp := by
  have hnext : (oddStart.disp.stream 1).next = 0 := by decide +kernel
  have hlimit : oddStart.disp.limit 1 = 2 ^ 40 := by decide +kernel
  have hrun := solo_claims oddStart_solo (2 ^ 31) 0 n (by decide +kernel) (by omega)
  rw [Nat.zero_add] at hrun
  exact hrun

theorem oddWorld_limits : ((oddWorld 511).disp.stream 1).next = 511 * 2 ^ 31
    ∧ (oddWorld 511).disp.limit 1 = 2 ^ 40 ∧ 2 ^ 31 ≤ (oddWorld 511).disp.cfg.maxBlock.val := by
  have htook := (oddWorld_took 511 (by decide)).2
  rw [htook.next, limit_congr htook.cfg htook.data, htook.cfg]
  decide +kernel

theorem oddWorld_claim : ∃ d', (oddWorld 511).disp.claim ⟨0, 7⟩ 512 (2 ^ 31) 0
      = (.ok (.grant (oddWorld 511).disp.nextBlock [(positionOf 1 (511 * 2 ^ 31),
          positionOf 1 (511 * 2 ^ 31 + 2 ^ 31))]), d') := by
  obtain ⟨hnext, hlimit, hsize⟩ := oddWorld_limits
  have hclaim := (oddWorld_took 511 (by decide)).1.newClaim
    ⟨by decide, hsize⟩ (by rw [hnext, hlimit]; decide) 0
  unfold soloGrant soloSpan at hclaim
  rw [hnext] at hclaim
  exact ⟨_, hclaim⟩

/-- The claim that fills an odd stream is granted a range that ends where
the stream begins: no position at all. -/
theorem full_odd_stream :
    (runs oddConfig 10).Reachable (oddWorld 511) ∧ Leased (oddWorld 511).disp ⟨0, 7⟩
      ∧ ∃ l c d', (oddWorld 511).disp.live.find ⟨0, 7⟩ = some l ∧ l.Newer 512
        ∧ 2 ^ 31 ≤ (oddWorld 511).disp.cfg.maxBlock.val
        ∧ (oddWorld 511).disp.claim ⟨0, 7⟩ 512 (2 ^ 31) 0 = (.ok c, d')
        ∧ ¬ AnswerSound (oddWorld 511).disp (oddWorld 511).log l.accept (2 ^ 31) c := by
  have hsolo := (oddWorld_took 511 (by decide)).1
  obtain ⟨l, hl, hacc, hlast⟩ := hsolo.live
  obtain ⟨hnext, hlimit, hsize⟩ := oddWorld_limits
  obtain ⟨d', hclaim⟩ := oddWorld_claim
  refine ⟨reachable_after (reachable_after (reachable_start oddConfig 10) _) _,
    hsolo.leased, l, _, _, hl, fun n a ha => Nat.lt_succ_of_le (hlast n a ha),
    hsize, hclaim, fun hsound => ?_⟩
  have hcard := (hsound.granted _ _ rfl).2.1
  have hempty : (positions [(positionOf 1 (511 * 2 ^ 31),
      positionOf 1 (511 * 2 ^ 31 + 2 ^ 31))]).card = 0 := by decide
  have hroom : 2 ^ 31 ≤ available (oddWorld 511).disp l.accept := by
    unfold available
    rw [hacc]
    simp only [toFinset_cons, toFinset_nil, insert_empty_eq, Finset.sum_singleton]
    omega
  omega

end Yeto.Dispense
