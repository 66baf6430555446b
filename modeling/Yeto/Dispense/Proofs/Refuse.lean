/-
Refused requests. A refusal of `claim` or `report` leaves everything but the
holder's lease time and the log. `open_with` fixes the run's data BEFORE it
looks at the accept list, so a refused hello can still decide what every later
island must declare (`refused_unchanged`).
-/
import Yeto.Dispense.Proofs.Runs

namespace Yeto.Dispense

open Lib Dispenser List

variable {accept : Option (List Nat)} {d : Dispenser} {holder : Holder} {now : Nat}

def Refuses (d : Dispenser) : Op → Prop
  | .openWith holder data accept now => ∃ e, (d.openWith holder data accept now).1 = .error e
  | .claim holder seq wanted now => ∃ e, (d.claim holder seq wanted now).1 = .error e
  | .report holder seq entries now => ∃ e, (d.report holder seq entries now).1 = .error e
  | _ => False

/-- Everything but lease times and the log is as it was. -/
structure Unchanged (d d' : Dispenser) : Prop where
  data : d'.data = d.data
  streams : d'.streams = d.streams
  blocks : d'.blocks = d.blocks
  nextBlock : d'.nextBlock = d.nextBlock
  live : d'.live = d.live
  totals : d'.totals = d.totals
  alive : ∀ h, d'.members.isLive h = d.members.isLive h
  retired : d'.members.retiredOrder = d.members.retiredOrder
    ∧ d'.members.retiredSet = d.members.retiredSet

/-- A first hello with a good declaration and a bad accept list. -/
def BadFirstHello (d : Dispenser) : Op → Prop
  | .openWith holder data accept _ =>
    d.data = none ∧ d.members.isRetired holder = false ∧ data.totalRows ≠ 0 ∧ data.validate = .ok ()
      ∧ ∃ ids, accept = some ids ∧ (ids = [] ∨ ∃ s ∈ ids, data.streams.length ≤ s)
  | _ => False

theorem Unchanged.refl (d : Dispenser) : Unchanged d d :=
  ⟨rfl, rfl, rfl, rfl, rfl, rfl, fun _ => rfl, rfl, rfl⟩

theorem unchanged_log {es : List DispenseEvent} : Unchanged d (d.log es) :=
  ⟨rfl, rfl, rfl, rfl, rfl, rfl, fun _ => rfl, rfl, rfl⟩

theorem unchanged_touched : Unchanged d (touched d holder now) := by
  have hret : (d.members.touch holder now).2.retiredOrder
      = d.members.retiredOrder ∧ (d.members.touch holder now).2.retiredSet
      = d.members.retiredSet := by
    unfold Members.touch
    split <;> exact ⟨rfl, rfl⟩
  exact ⟨rfl, rfl, rfl, rfl, rfl, rfl, Members.isLive_touch d.members holder now, hret⟩

theorem acceptList_error {n : Nat} : (∃ e, acceptList n accept = .error e)
      ↔ ∃ ids, accept = some ids ∧ (ids = [] ∨ ∃ s ∈ ids, n ≤ s) := by
  unfold acceptList
  cases accept with
  | none =>
    constructor
    · rintro ⟨e, ⟨⟩⟩
    · rintro ⟨ids, ⟨⟩, -⟩
  | some ids =>
    have hmem : ∀ s, s ∈ (ids.insertionSort (· ≤ ·)).dedup ↔ s ∈ ids := by
      intro s
      rw [mem_dedup, mem_insertionSort]
    dsimp only
    split
    · next hempty =>
      refine ⟨fun _ => ⟨ids, rfl, .inl ?_⟩, fun _ => ⟨_, rfl⟩⟩
      rw [List.isEmpty_iff] at hempty
      refine eq_nil_iff_forall_not_mem.2 fun s hs => ?_
      have := (hmem s).2 hs
      rw [hempty] at this
      cases this
    · next hne =>
      split
      · next bad hbad =>
        refine ⟨fun _ => ⟨ids, rfl, .inr ⟨bad, ?_, ?_⟩⟩, fun _ => ⟨_, rfl⟩⟩
        · exact (hmem bad).1 (mem_of_find?_eq_some hbad)
        · simpa using find?_some hbad
      · next hnone =>
        constructor
        · rintro ⟨e, ⟨⟩⟩
        · rintro ⟨_, ⟨⟩, rfl | ⟨s, hs, hle⟩⟩
          · exact absurd rfl hne
          · have := find?_eq_none.1 hnone s ((hmem s).2 hs)
            simp at this
            omega

theorem open_refused (hb : Books d) {data : DataDecl} {e : DispenseError}
    (he : (d.openWith holder data accept now).1 = .error e) :
    Unchanged d (d.openWith holder data accept now).2
      ↔ ¬ BadFirstHello d (.openWith holder data accept now) := by
  have hcase := open_case d holder data accept now
  generalize d.openWith holder data accept now = r at hcase he ⊢
  cases hcase with
  | fenced m hr => exact iff_of_true unchanged_log fun hbad => nomatch hr.symm.trans hbad.2.1
  | refused e' hno =>
    refine iff_of_true (Unchanged.refl d) fun hbad => ?_
    obtain ⟨hd, hret, hrows, hv, -⟩ := hbad
    refine hno (d.fixData data) ⟨hret, hrows, (DataDecl.validate_ok_iff data).1 hv, ?_⟩
    unfold Dispenser.agreeData
    rw [hd]
  | badList d' e' ha hl =>
    rcases agreeData_ok ha.agree with ⟨hd, rfl⟩ | ⟨hd, rfl⟩
    · exact iff_of_true (Unchanged.refl _) fun hbad => nomatch hd.symm.trans hbad.1
    · refine iff_of_false (fun hu => ?_) fun hno => hno ?_
      · cases hu.data.trans hd
      · have hlen : (d.fixData data).streams.length = data.streams.length := length_map _
        rw [hlen] at hl
        exact ⟨hd, ha.fresh, ha.rows, (DataDecl.validate_ok_iff data).2 ha.valid,
          acceptList_error.1 ⟨e', hl⟩⟩
  | full d' list e' ha hl hc hsize =>
    rcases agreeData_ok ha.agree with ⟨hd, rfl⟩ | ⟨hd, rfl⟩
    · exact iff_of_true (Unchanged.refl _) fun hbad => nomatch hd.symm.trans hbad.1
    · -- before the data is fixed nobody is live
      have hempty : (d.fixData data).live = .empty := (hb.nodata hd).2
      rw [hempty] at hsize
      exact absurd hsize (by decide)
  | opened d' list out d'' ha hl hen => cases he

variable {cfg : DispenseConfig} {lease : Nat} {w : World}

/-- In every reachable state a refused request changes nothing but lease
times and the log, the bad first hello apart. -/
theorem refused_unchanged (hr : (runs cfg lease).Reachable w) (o : Op)
    (hrefused : Refuses w.disp o) :
    Unchanged w.disp (w.disp.apply o) ↔ ¬ BadFirstHello w.disp o := by
  cases o with obtain ⟨e, he⟩ := hrefused
  | openWith holder data accept now => exact open_refused (worldOk_reachable hr).books he
  | claim holder seq wanted now =>
    refine iff_of_true ?_ id
    show Unchanged w.disp (w.disp.claim holder seq wanted now).2
    have hcase := claim_case w.disp holder seq wanted now
    generalize w.disp.claim holder seq wanted now = r at hcase he ⊢
    cases hcase with
    | fenced m _ => exact unchanged_log
    | stale | refused => exact unchanged_touched
    | replayed | new => cases he
  | report holder seq entries now =>
    refine iff_of_true ?_ id
    show Unchanged w.disp (w.disp.report holder seq entries now).2
    have hcase := report_case w.disp holder seq entries now
    generalize w.disp.report holder seq entries now = r at hcase he ⊢
    cases hcase with
    | fenced m _ => exact unchanged_log
    | stale | refused => exact unchanged_touched
    | replayed | new => cases he

def badHello : Op := .openWith ⟨0, 7⟩ sampleData (some [5]) 0

/-- It is refused, and fixes the run's data: an island that declares other
data is then turned away as a mismatch. -/
theorem bad_hello_fixes_data : (runs sampleConfig 10).Reachable (startWorld sampleConfig 10)
      ∧ Refuses (startWorld sampleConfig 10).disp badHello
      ∧ ¬ Unchanged (startWorld sampleConfig 10).disp
        ((startWorld sampleConfig 10).disp.apply badHello)
      ∧ ∃ m, (((startWorld sampleConfig 10).disp.apply badHello).openWith
        ⟨1, 8⟩ (.single 4 zeroFingerprint) none 1).1 = .error (.mismatch m) := by
  have hdata : ((startWorld sampleConfig 10).disp.apply badHello).data
      = some sampleData := by decide +kernel
  refine ⟨reachable_start sampleConfig 10, ⟨_, rfl⟩, fun hu => ?_, ⟨_, rfl⟩⟩
  have := hu.data
  cases this

/-- A report that names a position it does not hold, after a good entry. -/
def badReport : Op := .report ⟨0, 7⟩ 3 [⟨1, .trained, [(1099511627776, 1099511627777)]⟩,
    ⟨1, .trained, [(3, 4)]⟩] 3

theorem refused_unchanged_sample : Refuses sampleWorld.disp badReport
      ∧ (Unchanged sampleWorld.disp (sampleWorld.disp.apply badReport)
        ↔ ¬ BadFirstHello sampleWorld.disp badReport) := ⟨⟨_, rfl⟩, refused_unchanged
    (reachable_after (reachable_start sampleConfig 10) sampleOps) badReport ⟨_, rfl⟩⟩

end Yeto.Dispense
