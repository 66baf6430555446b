/-
The ranges of a grant. While every span can be expressed (`Fits`) the range of
a pick is as long as the pick. The claim that takes an odd stream to its last
position gets a range that ends where the stream begins.
-/
import Yeto.Dispense.Proofs.Answers

namespace Yeto.Dispense

open Lib Dispenser List SortedMap Ledger

variable {cfg : DispenseConfig} {lease : Nat} {w : World} {d : Dispenser}
  {accept : List Nat} {wanted : Nat}

structure WellFormed (d : Dispenser) (accept : List Nat) (wanted : Nat)
    (ranges : List (Nat × Nat)) : Prop where
  nonempty : ∀ r ∈ ranges, r.1 < r.2
  /-- Of one declared stream, which the holder accepts. -/
  stream : ∀ r ∈ ranges, ∃ s ∈ accept, s < d.streams.length
    ∧ ∀ p, r.1 ≤ p → p < r.2 → streamOf p = s
  /-- What each was taken from: a queue, then the picks. -/
  lengths : (ranges.map fun r => r.2 - r.1)
    = ((drainStreams accept wanted d.streams).1.map fun sp => sp.stop - sp.start)
      ++ (picksOf d accept wanted).map Prod.snd

theorem lengths_collect (hacc : ∀ s ∈ accept, s < d.streams.length)
    (hfit : Fits (d.collect accept wanted).2.streams) :
    ((d.collect accept wanted).1.map fun sp => sp.stop - sp.start)
      = ((drainStreams accept wanted d.streams).1.map fun sp =>
          sp.stop - sp.start) ++ (picksOf d accept wanted).map Prod.snd := by
  have hpick := picked_picksOf wanted hacc
  have hin := picksOf_lt wanted hacc
  rw [collect_eq] at hfit ⊢
  rw [map_append, spans_giveFresh _ _ hpick.distinct hin, map_map]
  congr 1
  apply map_congr_left
  intro e he
  have hnext := (stream_giveFresh _ _ hin e.1).1
  rw [pickedOf_mem hpick.distinct he] at hnext
  have hpos : ∀ k, k ≤ ((afterDrain d accept wanted).stream e.1).next + e.2 →
      positionOf e.1 k = e.1 * 2 ^ 40 + k := by
    intro k hk
    apply positionOf_fits hfit
    · rw [(gave_giveFresh _ _).length]
      exact hin e he
    · exact hk.trans hnext.ge
  show positionOf e.1 _ - positionOf e.1 _ = e.2
  rw [hpos _ (Nat.le_add_right _ _), hpos _ le_rfl]
  omega

theorem wellFormed_collect {log : List DispenseEvent} (hb : Books d)
    (hc : Conserved d log) (hbelow : Below d) (hacc : ∀ s ∈ accept, s < d.streams.length)
    (hfit : Fits (d.collect accept wanted).2.streams) :
    WellFormed d accept wanted ((d.collect accept wanted).1.map Span.range) := by
  have hcol := collected hb hc wanted hacc hfit
  have hnext := (grows_collect wanted hacc).capped
  have hspan : ∀ r ∈ (d.collect accept wanted).1.map Span.range,
      r.1 < r.2 ∧ ∃ s ∈ accept, s < d.streams.length ∧ ∀ p, r.1 ≤ p → p < r.2 → streamOf p = s := by
    intro r hr
    obtain ⟨sp, hsp, rfl⟩ := mem_map.1 hr
    obtain ⟨s, hs, -, hi⟩ := hcol.spans sp hsp
    have hle := (hnext s (hbelow s)).trans (limit_le _ s)
    exact ⟨hi.nonempty, s, hs, hacc s hs, fun p h1 h2 => hi.streamOf_mem hle h1 h2⟩
  refine ⟨fun r hr => (hspan r hr).1, fun r hr => (hspan r hr).2, ?_⟩
  rw [map_map]
  exact lengths_collect hacc hfit

/-- A new grant of a run in which no odd stream is full, to a claim that
cannot fill one, is well formed, and the invariants hold after it. -/
theorem grant_wellFormed (hr : (runs cfg lease).Reachable w)
    (hfit : Fits w.disp.streams) {holder : Holder} {l : Live}
    (hl : w.disp.live.find holder = some l) {seq now : Nat} (hnew : l.Newer seq)
    (hroomy : Op.Roomy w.disp (.claim holder seq wanted now)) {id : Nat}
    {ranges : List (Nat × Nat)} {d' : Dispenser}
    (hclaim : w.disp.claim holder seq wanted now = (.ok (.grant id ranges), d')) :
    WellFormed w.disp l.accept wanted ranges ∧ Books d' ∧ Conserved d' (w.before ++ d'.events) := by
  have hok := worldOk_reachable hr
  have hbelow := below_reachable hr
  have hfit' := fits_apply hok.books hbelow hfit hroomy
  have happly : w.disp.apply (.claim holder seq wanted now) = d' := congrArg Prod.snd hclaim
  have hok' := worldOk_reachable (hr.step (World.Step.op w (.claim holder seq wanted now)))
  rw [happly] at hfit' hok'
  refine ⟨?_, hok'.books, hok'.conserved hfit'⟩
  obtain ⟨hans, hstreams⟩ := claim_answer hok.books hl hnew hclaim
  have hc : Conserved (touched w.disp holder now) w.log := { hok.conserved hfit with }
  cases hans
  exact { wellFormed_collect (hok.books.touched holder now) hc hbelow
    (hok.books.accept holder l hl).2.2 (hstreams ▸ hfit') with }

theorem grant_wellFormed_sample : ∃ l, sampleWorld.disp.live.find ⟨0, 7⟩ = some l
    ∧ WellFormed sampleWorld.disp l.accept 2 [(1, 2), (2 ^ 40 + 3, 2 ^ 40 + 4)] := by
  obtain ⟨l, hl, hnew⟩ := sampleWorld_live
  have hclaim : (sampleWorld.disp.claim ⟨0, 7⟩ 3 2 3).1
      = .ok (.grant 2 [(1, 2), (2 ^ 40 + 3, 2 ^ 40 + 4)]) := by decide +kernel
  exact ⟨l, hl, (grant_wellFormed (reachable_after (reachable_start sampleConfig
    10) sampleOps) sampleWorld_fits hl hnew sampleWorld_roomy (Prod.ext hclaim rfl)).1⟩

/-- The 512th claim of the odd stream ends where the stream begins. -/
theorem reversed_range : (runs oddConfig 10).Reachable (oddWorld 511)
    ∧ ∃ id r d', (oddWorld 511).disp.claim ⟨0, 7⟩ 512 (2 ^ 31) 0
      = (.ok (.grant id [r]), d') ∧ ¬ r.1 < r.2 := by
  obtain ⟨d', hclaim⟩ := oddWorld_claim
  refine ⟨reachable_after (reachable_after (reachable_start oddConfig 10) _) _,
    _, _, d', hclaim, ?_⟩
  decide

end Yeto.Dispense
