/-
The pass limits over whole runs.

`position_of(s, 2 ^ 40)` is right for the END of a span of an even `s`; for an
odd `s` the bit is set already and the result is the FIRST position of `s`. A
claim is `Roomy` if it cannot take an odd stream that far. Roomy steps keep
`Fits` (`fits_apply`), the condition of the conservation results.
-/
import Yeto.Dispense.Proofs.Others

namespace Yeto.Dispense

open Lib Dispenser List

variable {cfg : DispenseConfig} {lease : Nat} {w w' : World} {d : Dispenser} {s : Nat} {o : Op}
  {d' : Dispenser}

/-- No stream has given out more than its passes. -/
def Below (d : Dispenser) : Prop := ∀ s, (d.stream s).next ≤ d.limit s

theorem below_apply (hb : Books d) (h : Below d) (o : Op) :
    Below (d.apply o) := fun s => (grows_apply hb o).capped s (h s)

/-- A restart keeps the limits: the record has the data, the new process
the configuration. -/
theorem Restored.below {queue : List Span} {holders : List Holder}
    (h : Restored cfg lease d queue holders d') (hcfg : d.cfg = cfg) (hbelow : Below d) :
    Below d' := by
  intro s
  rw [(h.stream s).1, limit_congr (h.cfg.trans hcfg.symm) h.data]
  exact hbelow s

/-- The limits hold now and in every record. -/
structure BelowOk (cfg : DispenseConfig) (w : World) : Prop where
  disp : Below w.disp
  records : ∀ bytes log, (bytes, log) ∈ w.records →
    ∃ d, bytes = d.encodePersisted ∧ d.cfg = cfg ∧ Books d ∧ Below d

theorem BelowOk.step (hok : WorldOk cfg w) (h : BelowOk cfg w)
    (hs : World.Step cfg lease w w') : BelowOk cfg w' := by
  cases hs with
  | op o => exact ⟨below_apply hok.books h.disp o, h.records⟩
  | drain => exact ⟨h.disp, h.records⟩
  | record =>
    refine ⟨h.disp, fun bytes log hm => ?_⟩
    rcases mem_cons.1 hm with heq | hm
    · cases heq
      exact ⟨w.disp, rfl, hok.config, hok.books, h.disp⟩
    · exact h.records bytes log hm
  | restart bytes log d hm hr =>
    obtain ⟨d₀, rfl, hcfg, hb, hbelow⟩ := h.records bytes log hm
    obtain ⟨queue, holders, hres, -⟩ := restore_inv hb hr
    exact ⟨hres.below hcfg hbelow, h.records⟩

theorem below_reachable (h : (runs cfg lease).Reachable w) : Below w.disp := by
  have hok : BelowOk cfg w := by
    refine System.invariant ?_ ?_ h
    · intro w₀ h0
      cases h0
      exact ⟨fun s => Nat.zero_le _, fun _ _ hm => (not_mem_nil hm).elim⟩
    · intro w₀ w₁ hr hok hs
      exact hok.step (worldOk_reachable hr) hs
  exact hok.disp

/-- The operation cannot take an odd stream to the end of its positions. -/
def Op.Roomy (d : Dispenser) (o : Op) : Prop := ∀ s, s % 2 = 1 → o.takes d s ≠ 0 →
    d.limit s < 2 ^ 40 ∨ (d.stream s).next + o.takes d s < 2 ^ 40

theorem accept_of_takes (h : o.takes d s ≠ 0) : ∃ holder, s ∈ d.acceptOf holder := by
  cases o with
  | claim holder seq wanted now =>
    refine ⟨holder, ?_⟩
    by_contra hs
    exact h (if_neg hs)
  | _ => exact absurd rfl h

theorem next_lt_of_odd (hfit : Fits d.streams) (hodd : s % 2 = 1) : (d.stream s).next < 2 ^ 40 := by
  by_cases hs : s < d.streams.length
  · rcases hfit s hs with hlt | ⟨heven, -⟩
    · exact hlt
    · omega
  · unfold stream
    rw [getD_eq_default _ _ (not_lt.1 hs)]
    decide

theorem limit_of_accept {t : Nat → Nat} (hb : Books d) (hg : Grows t d d') {holder : Holder}
    (hs : s ∈ d.acceptOf holder) : d'.limit s = d.limit s := by
  cases hd : d.data with
  | none =>
    unfold acceptOf at hs
    rw [(hb.nodata hd).2] at hs
    cases hs
  | some decl => exact limit_congr hg.cfg ((hg.data decl hd).trans hd.symm) s

theorem fits_apply (hb : Books d) (hbelow : Below d) (hfit : Fits d.streams) (ho : o.Roomy d) :
    Fits (d.apply o).streams := by
  have hg := grows_apply hb o
  intro s hs
  have hcap : ((d.apply o).stream s).next ≤ (d.apply o).limit s := below_apply hb hbelow o s
  have hle := limit_le (d.apply o) s
  have hupper := hg.upper s
  by_cases hlt : ((d.apply o).stream s).next < 2 ^ 40
  · exact .inl hlt
  have hfull : ((d.apply o).stream s).next = 2 ^ 40 := by omega
  refine .inr ⟨?_, hfull⟩
  by_contra hodd
  have hbefore : (d.stream s).next < 2 ^ 40 := next_lt_of_odd hfit (by omega)
  have htakes : o.takes d s ≠ 0 := by omega
  obtain ⟨holder, hs⟩ := accept_of_takes htakes
  rcases ho s (by omega) htakes with hlim | hroom
  · rw [limit_of_accept hb hg hs] at hcap
    omega
  · omega

inductive Onward : World → World → Prop
  | op (w : World) (o : Op) : o.Roomy w.disp → Onward w { w with disp := w.disp.apply o }
  | drain (w : World) : Onward w { w with
        disp := w.disp.takeEvents.2
        before := w.before ++ w.disp.takeEvents.1 }
  | record (w : World) : Onward w { w with
        disp := w.disp.checkpointRecord.2
        records := (w.disp.checkpointRecord.1, w.log) :: w.records }

theorem Onward.toStep (h : Onward w w') : World.Step cfg lease w w' := by
  cases h with
  | op o _ => exact .op w o
  | drain => exact .drain w
  | record => exact .record w

structure Continued (w w' : World) : Prop where
  fits : Fits w'.disp.streams
  /-- What was settled stays settled. -/
  settled : ∀ p ∈ settledOf w.log, p ∈ settledOf w'.log
  cfg : w'.disp.cfg = w.disp.cfg
  data : ∀ decl, w.disp.data = some decl → w'.disp.data = some decl

theorem Continued.step {w₀ : World} (hr : (runs cfg lease).Reachable w)
    (h : Continued w₀ w) (hs : Onward w w') : Continued w₀ w' := by
  have hok := worldOk_reachable hr
  cases hs with
  | op o ho =>
    have hg := grows_apply hok.books o
    have hfit := fits_apply hok.books (below_reachable hr) h.fits ho
    obtain ⟨es, he, -⟩ := keeps_apply hok.books o hfit
    refine ⟨hfit, fun p hp => ?_, hg.cfg.trans h.cfg, fun decl hd => hg.data decl (h.data decl hd)⟩
    show p ∈ settledOf (w.before ++ (w.disp.apply o).events)
    rw [he, ← append_assoc, settledOf_append]
    exact Multiset.mem_add.2 (.inl (h.settled p hp))
  | drain =>
    refine { h with settled := fun p hp => ?_ }
    show p ∈ settledOf ((w.before ++ w.disp.events) ++ [])
    rw [append_nil]
    exact h.settled p hp
  | record =>
    refine { h with settled := fun p hp => ?_ }
    show p ∈ settledOf (w.before ++ (w.disp.events ++ _))
    rw [← append_assoc, settledOf_append]
    exact Multiset.mem_add.2 (.inl (h.settled p hp))

theorem continued (hr : (runs cfg lease).Reachable w) (hfit : Fits w.disp.streams)
    (h : Relation.ReflTransGen Onward w w') : (runs cfg lease).Reachable w' ∧ Continued w w' := by
  induction h with
  | refl => exact ⟨hr, hfit, fun _ hp => hp, rfl, fun _ hd => hd⟩
  | tail _ hstep ih =>
    obtain ⟨hr', hc⟩ := ih
    exact ⟨hr'.step hstep.toStep, hc.step hr' hstep⟩

end Yeto.Dispense
