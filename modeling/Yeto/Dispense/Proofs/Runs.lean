/-
Whole runs: the books and the ledger of every reachable world. `WorldOk` also
carries what a restart will need: every record taken so far encodes a state
whose books and ledger were in order. Conservation is conditional on the
streams fitting NOW; counters never go back.
-/
import Yeto.Dispense.Proofs.RoundTrip

namespace Yeto.Dispense

open Lib Dispenser Multiset SortedMap Ledger List

variable {cfg : DispenseConfig} {lease : Nat} {w w' : World} {b : Block} {d : Dispenser}
  {log : List DispenseEvent} {p : Nat}

structure WorldOk (cfg : DispenseConfig) (w : World) : Prop where
  config : w.disp.cfg = cfg
  books : Books w.disp
  conserved : Fits w.disp.streams → Conserved w.disp w.log
  records : ∀ bytes log, (bytes, log) ∈ w.records →
    ∃ d, bytes = d.encodePersisted ∧ d.cfg = cfg ∧ Books d ∧ (Fits d.streams → Conserved d log)

theorem worldOk_init (h : (runs cfg lease).init w) : WorldOk cfg w := by
  cases h
  exact ⟨rfl, books_fresh cfg, fun _ => conserved_fresh cfg _, fun _ _ hm => (not_mem_nil hm).elim⟩

theorem WorldOk.step (h : WorldOk cfg w) (hs : World.Step cfg lease w w') : WorldOk cfg w' := by
  cases hs with
  | op o =>
    have hg := grows_apply h.books o
    refine ⟨hg.cfg.trans h.config, h.books.apply o, fun hfit => ?_, h.records⟩
    obtain ⟨es, he, hk⟩ := keeps_apply h.books o hfit
    have hc := hk _ (h.conserved (hg.fits hfit))
    unfold World.log at hc ⊢
    rwa [he, ← append_assoc]
  | drain =>
    refine ⟨h.config, h.books.of_eq h.books.members rfl rfl rfl rfl rfl, fun hfit => ?_, h.records⟩
    have hc := h.conserved hfit
    unfold World.log at hc ⊢
    dsimp only [takeEvents]
    rw [append_nil]
    exact { hc with }
  | record =>
    have hk : Keeps w.disp (w.disp.log [.checkpoint w.disp.nextPosition
        w.disp.queued w.disp.outstanding]) := keeps_log w.disp (quiet_one ⟨rfl, rfl, rfl⟩)
    refine ⟨h.config, h.books.log _, fun hfit => ?_, ?_⟩
    · obtain ⟨es, he, hk⟩ := hk
      have hc := hk _ (h.conserved hfit)
      unfold World.log at hc ⊢
      dsimp only [checkpointRecord]
      rwa [he, ← append_assoc]
    · intro bytes log hm
      rcases mem_cons.1 hm with heq | hm
      · cases heq
        exact ⟨w.disp, rfl, h.config, h.books, h.conserved⟩
      · exact h.records bytes log hm
  | restart bytes log d hm hr =>
    obtain ⟨d₀, rfl, hcfg, hb, hcons⟩ := h.records bytes log hm
    obtain ⟨queue, holders, hres, himp⟩ := restore_inv hb hr
    refine ⟨hres.cfg, hres.books hb, fun hfit => ?_, h.records⟩
    have hfit₀ : Fits d₀.streams := by
      intro s hs
      have := hfit s (hres.length ▸ hs)
      rwa [show (d.streams.getD s .default).next = _ from (hres.stream s).1] at this
    have hc := hcons hfit₀
    obtain ⟨-, rfl, -⟩ := himp (hc.queueWords hb)
    exact hres.conserved hc hb hcfg

theorem worldOk_reachable (h : (runs cfg lease).Reachable w) : WorldOk cfg w :=
  System.invariant (fun _ hi => worldOk_init hi) (fun _ _ _ hw hs => hw.step hs) h

def queuedPositions (d : Dispenser) : Multiset Nat := Ledger.items (queueCells d.streams)

def openPositions (d : Dispenser) : Multiset Nat := Ledger.items (heldCells d.blocks)

def Block.Holds (b : Block) (p : Nat) : Prop := ∃ sp ∈ b.spans, sp.start ≤ p ∧ p < sp.stop

/-- Every row given out is in exactly one place. -/
structure RowsConserved (d : Dispenser) (log : List DispenseEvent) : Prop where
  /-- A position given out is settled, queued or open: once in all. -/
  once : ∀ s < d.streams.length, ∀ k < (d.stream s).next, (settledOf log).count (positionOf s k)
      + (queuedPositions d).count (positionOf s k) + (openPositions d).count (positionOf s k) = 1
  /-- No other position is. -/
  below : ∀ p ∈ settledOf log + queuedPositions d + openPositions d,
    ∃ s < d.streams.length, ∃ k < (d.stream s).next, p = positionOf s k
  /-- An open position is open in one block. -/
  oneBlock : ∀ id b id' b', d.blocks.find id = some b →
    d.blocks.find id' = some b' → ∀ p, b.Holds p → b'.Holds p → id = id'
  queuedSpans : ∀ s, ∀ sp ∈ (d.stream s).queue, InStream s (d.stream s).next sp
  openSpans : ∀ id b, d.blocks.find id = some b → ∀ sp ∈ b.spans,
    ∃ s < d.streams.length, InStream s (d.stream s).next sp
  totals : (settledOf log).card = d.totals.trained + d.totals.dropped + d.totals.exhausted
  /-- A block's holder is live and is the one holder that lists the block. -/
  owner : ∀ id b, d.blocks.find id = some b →
    ∃ l, d.live.find b.holder = some l ∧ l.blocks.contains id = true
      ∧ ∀ h' l', d.live.find h' = some l' → l'.blocks.contains id = true → h' = b.holder

theorem mem_givenOf {streams : List StreamState} : p ∈ givenOf streams ↔ ∃ s < streams.length,
      s * 2 ^ 40 ≤ p ∧ p < s * 2 ^ 40 + (streams.getD s .default).next := by
  unfold givenOf
  rw [mem_sum_range]
  simp only [mem_Ico]

theorem mem_items_spans : b.Holds p ↔ p ∈ items (cellsOf b.spans) := by
  rw [mem_items]
  constructor
  · rintro ⟨sp, hsp, h1, h2⟩
    exact ⟨sp.redo, mem_cellsOf.2 ⟨sp, hsp, mem_cells.2 ⟨h1, h2, rfl⟩⟩⟩
  · rintro ⟨r, hr⟩
    obtain ⟨sp, hsp, hx⟩ := mem_cellsOf.1 hr
    obtain ⟨h1, h2, -⟩ := mem_cells.1 hx
    exact ⟨sp, hsp, h1, h2⟩

theorem Conserved.oneBlock (h : Conserved d log) {id id' : Nat} {b' : Block}
    (hf : d.blocks.find id = some b) (hf' : d.blocks.find id' = some b') (hp : b.Holds p)
    (hp' : b'.Holds p) : id = id' := by
  by_contra hne
  have hsum : heldCells d.blocks = cellsOf b.spans + heldCells (d.blocks.erase id) :=
    sum_erase_add d.blocks _ hf
  have hf'' : (d.blocks.erase id).find id' = some b' := by
    rw [find_erase, if_neg fun he => hne he.symm]
    exact hf'
  have hsum' : heldCells (d.blocks.erase id)
      = cellsOf b'.spans + heldCells ((d.blocks.erase id).erase id') := sum_erase_add _ _ hf''
  have hnd := h.ledger.nodup_active
  dsimp only [ledgerOf] at hnd
  rw [hsum, hsum', items_add, items_add] at hnd
  have hdisj := (nodup_add.1 (nodup_add.1 hnd).2.1).2.2
  exact disjoint_left.1 hdisj (mem_items_spans.1 hp) (mem_add.2 (.inl (mem_items_spans.1 hp')))

theorem Conserved.rows (h : Conserved d log) (hb : Books d) (hfit : Fits d.streams) :
    RowsConserved d log := by
  have hbal : queuedPositions d + openPositions d + settledOf log
      = givenOf d.streams := h.ledger.balance
  refine ⟨?_, ?_, ?_, h.queues, h.held, h.totals.symm, ?_⟩
  · intro s hs k hk
    have hpos := positionOf_fits hfit hs hk.le
    have hmem : positionOf s k ∈ givenOf d.streams := by
      rw [mem_givenOf, hpos]
      unfold stream at hk
      exact ⟨s, hs, by omega, by omega⟩
    have hone := count_eq_one_of_mem h.ledger.nodup hmem
    rw [show (ledgerOf d log).given = givenOf d.streams from rfl, ← hbal,
      count_add, count_add] at hone
    omega
  · intro p hp
    have hmem : p ∈ givenOf d.streams := by
      rw [← hbal]
      simp only [mem_add] at hp ⊢
      tauto
    obtain ⟨s, hs, h1, h2⟩ := mem_givenOf.1 hmem
    have hk : p - s * 2 ^ 40 < (d.stream s).next := by
      unfold stream
      omega
    refine ⟨s, hs, p - s * 2 ^ 40, hk, ?_⟩
    rw [positionOf_fits hfit hs hk.le]
    omega
  · intro id b id' b' hf hf' p hp hp'
    exact h.oneBlock hf hf' hp hp'
  · intro id b hf
    obtain ⟨l, hl, hc⟩ := hb.owner id b hf
    refine ⟨l, hl, hc, fun h' l' hl' hc' => ?_⟩
    obtain ⟨b', hb', hh⟩ := hb.owned h' l' id hl' hc'
    rw [hf] at hb'
    cases hb'
    exact hh.symm

def World.after (w : World) (ops : List Op) : World :=
  { w with disp := ops.foldl Dispenser.apply w.disp }

theorem reachable_after (h : (runs cfg lease).Reachable w) (ops : List Op) :
    (runs cfg lease).Reachable (w.after ops) := by
  induction ops generalizing w with
  | nil => exact h
  | cons o ops ih => exact ih (h.step (World.Step.op w o))

def startWorld (cfg : DispenseConfig) (lease : Nat) : World :=
  ⟨Dispenser.withMembers cfg (Members.new lease), [], []⟩

theorem reachable_start (cfg : DispenseConfig) (lease : Nat) :
    (runs cfg lease).Reachable (startWorld cfg lease) := .init rfl

def sampleData : DataDecl :=
  ⟨[⟨4, 1, "a"⟩, ⟨4, 2, "b"⟩], zeroFingerprint⟩

def sampleConfig : DispenseConfig := ⟨10, some 2, 1, 8⟩

/-- Island 0 takes five positions, trains one and requeues another. -/
def sampleOps : List Op := [.openWith ⟨0, 7⟩ sampleData none 0, .claim ⟨0, 7⟩ 1 5 1,
    .report ⟨0, 7⟩ 2 [⟨1, .trained, [(0, 1)]⟩, ⟨1, .requeue, [(1, 2)]⟩] 2]

def sampleWorld : World := (startWorld sampleConfig 10).after sampleOps

theorem sampleWorld_live : ∃ l, sampleWorld.disp.live.find ⟨0, 7⟩ = some l ∧ l.Newer 3 := by
  have hin : sampleWorld.disp.live.contains ⟨0, 7⟩ = true := by decide +kernel
  obtain ⟨l, hl⟩ := (contains_iff _ _).1 hin
  refine ⟨l, hl, fun n a hlast => ?_⟩
  have hseq : ((sampleWorld.disp.live.find ⟨0, 7⟩).bind (·.last)).map
      Prod.fst = some 2 := by decide +kernel
  rw [hl, Option.bind_some, hlast] at hseq
  obtain rfl : n = 2 := Option.some.inj hseq
  decide

end Yeto.Dispense
