/-
The size of a TASK_REPORT. An entry takes 13 bytes and each of its ranges 16,
so a position costs at most 29 bytes and 36157 of them fit (`report_fits`).
Nothing bounds how many wait while the head cannot be reached
(`report_too_large`).
-/
import Yeto.Dispense.TaskSource
import Mathlib.Algebra.Order.BigOperators.Group.List
import Mathlib.Algebra.BigOperators.Ring.List

namespace Yeto.Dispense

open Lib List

variable {n size : Nat}

theorem length_encodeReport {seq : Nat} {entries : List ReportEntry} :
    (encodeReport seq entries).length
      = 12 + (entries.map fun e => 13 + 16 * e.ranges.length).sum := by
  have hranges : ∀ ranges : List (Nat × Nat), (ranges.flatMap fun r => le 8 r.1 ++ le 8 r.2).length
        = 16 * ranges.length := by simp [length_flatMap, Nat.mul_comm]
  simp only [encodeReport, length_append, length_le, length_flatMap, length_cons, hranges]

theorem length_extendRanges (out : List (Nat × Nat)) (p : Nat) :
    (extendRanges out p).length ≤ out.length + 1 := by
  unfold extendRanges
  split
  · split <;> simp
  · simp

theorem length_rangesOf (positions : List Nat) :
    (rangesOf positions).length ≤ positions.length := by
  have hloop : ∀ (l : List Nat) (out : List (Nat × Nat)),
      (l.foldl extendRanges out).length ≤ out.length + l.length := by
    intro l
    induction l with
    | nil => simp
    | cons p l ih =>
      intro out
      have hstep := length_extendRanges out p
      have hrest := ih (extendRanges out p)
      simp only [foldl_cons, length_cons]
      omega
  have hdedup := (dedup_sublist positions).length_le
  have hall := hloop (positions.dedup.insertionSort (· ≤ ·)) []
  simp only [length_insertionSort, length_nil] at hall
  unfold rangesOf
  omega

namespace TaskSource

def waiting (body : List Waiting) : Nat := (body.map (·.items.length)).sum

theorem group_ne_nil {p block : Nat} {groups : List (Nat × List Nat)}
    (h : ∀ e ∈ groups, e.2 ≠ []) : ∀ e ∈ group p block groups, e.2 ≠ [] := by
  induction groups with
  | nil => simp [group]
  | cons g groups ih =>
    obtain ⟨hg, hrest⟩ := forall_mem_cons.1 h
    unfold group
    split
    · exact forall_mem_cons.2 ⟨by simp, hrest⟩
    · exact forall_mem_cons.2 ⟨hg, ih hrest⟩

theorem sortOut_ne_nil {positions : List Nat} : ∀ acc : (Nat → Option Nat) × List (Nat × List Nat),
      (∀ e ∈ acc.2, e.2 ≠ []) → ∀ e ∈ (positions.foldl sortOut acc).2, e.2 ≠ [] := by
  induction positions with
  | nil => exact fun _ h => h
  | cons p positions ih =>
    intro acc h
    refine ih _ ?_
    unfold sortOut
    split
    · exact h
    · exact group_ne_nil h

/-- At most so many positions wait when a request begins. -/
def fewWaiting (s : TaskSource) : SourceOp → Bool
  | .begin => waiting s.pending ≤ 36157
  | _ => true

structure Ok (s : TaskSource) : Prop where
  pending : ∀ w ∈ s.pending, w.items ≠ []
  inflight : ∀ seq body, s.inflight = some (seq, .report body) →
    (∀ w ∈ body, w.items ≠ []) ∧ waiting body ≤ 36157

variable {s s' : TaskSource} {block prefetchBlocks : Nat}

theorem Ok.reportKind (h : Ok s) (kind : ReportKind) (positions : List Nat) :
    Ok (s.reportKind kind positions) := by
  refine ⟨fun w hw => ?_, h.inflight⟩
  rcases mem_append.1 hw with hw | hw
  · exact h.pending w hw
  · obtain ⟨e, he, rfl⟩ := mem_map.1 hw
    exact sortOut_ne_nil (s.owner, []) (by simp) e he

theorem Ok.begin (h : Ok s) (hfew : waiting s.pending ≤ 36157) : Ok s.begin := by
  unfold TaskSource.begin
  split
  · exact h
  split
  · refine ⟨by simp, fun seq body hw => ?_⟩
    cases hw
    exact ⟨h.pending, hfew⟩
  split
  · exact ⟨h.pending, nofun⟩
  · exact h

theorem Ok.step {op : SourceOp} (h : Ok s) (hop : s.fewWaiting op = true)
    (hexec : s.exec op = some s') : Ok s' := by
  cases op with
  | take =>
    dsimp only [exec] at hexec
    split at hexec <;> cases hexec
    exact ⟨h.pending, h.inflight⟩
  | report trained dropped requeue release =>
    cases hexec
    exact (((h.reportKind _ trained).reportKind _ dropped).reportKind _
      requeue).reportKind _ release
  | holdReady | stopClaims =>
    cases hexec
    exact ⟨h.pending, h.inflight⟩
  | begin =>
    cases hexec
    exact h.begin (of_decide_eq_true hop)
  | granted | wait | ended | ack =>
    dsimp only [exec] at hexec
    split at hexec <;> cases hexec
    exact ⟨h.pending, nofun⟩
  | fenced =>
    cases hexec
    exact ⟨nofun, nofun⟩

theorem ok_reachable (h : (runs block prefetchBlocks fewWaiting).Reachable s) : Ok s := by
  refine System.guarded_invariant ⟨by simp, by simp⟩ ?_ h
  exact fun s s' op hok hop hexec => hok.step hop hexec

/-- Where a request begins with at most 36157 positions to report, the head
reads every TASK_REPORT. -/
theorem report_fits {bytes : List UInt8} (h : (runs block prefetchBlocks fewWaiting).Reachable s)
    (hframe : s.frame = some bytes) : bytes.length ≤ maxTaskReport := by
  unfold frame at hframe
  split at hframe <;> cases hframe
  next seq body hwire =>
  obtain ⟨hitems, hfew⟩ := (ok_reachable h).inflight seq body hwire
  have hcost : ∀ w ∈ body, 13 + 16 * (rangesOf w.items).length ≤ w.items.length * 29 := by
    intro w hw
    have hpos := length_pos_iff.2 (hitems w hw)
    have hle := length_rangesOf w.items
    omega
  have hsum := sum_le_sum hcost
  rw [sum_map_mul_right] at hsum
  unfold waiting at hfew
  rw [length_encodeReport, map_map]
  unfold maxTaskReport
  show 12 + (body.map fun w => 13 + 16 * (rangesOf w.items).length).sum ≤ _
  omega

def shortReport : List SourceOp := [.begin, .granted 7 [(4, 6), (9, 10)], .take, .take, .take,
    .report [4, 9] [] [] [5], .begin]

theorem report_fits_short : ∃ s bytes,
    System.play fewWaiting exec { block := 3, prefetchBlocks := 2 } shortReport
      = some s ∧ s.frame = some bytes ∧ bytes.length = 86 ∧ bytes.length ≤ maxTaskReport := by
  obtain ⟨s, hs⟩ : ∃ s, System.play fewWaiting exec
      { block := 3, prefetchBlocks := 2 } shortReport = some s := ⟨_, rfl⟩
  obtain ⟨bytes, hbytes⟩ : ∃ bytes, s.frame = some bytes := by
    obtain rfl := Option.some.inj hs
    exact ⟨_, rfl⟩
  refine ⟨s, bytes, hs, hbytes, ?_, report_fits (System.reachable_play hs) hbytes⟩
  obtain rfl := Option.some.inj hs
  obtain rfl := Option.some.inj hbytes
  decide

/-- The island with `k` positions of its block reported one by one, and `n`
to take. -/
def oneByOne (size k n : Nat) : TaskSource :=
  { block := size
    prefetchBlocks := 2
    ready := (range' k n).map (·, 1)
    pending := (range k).map fun p => ⟨1, .trained, [p]⟩
    seq := 1 }

def anyTime (_ : TaskSource) (_ : SourceOp) : Bool := true

theorem reachable_oneByOne : ∀ {k : Nat}, (runs size 2 anyTime).Reachable (oneByOne size k n) →
      (runs size 2 anyTime).Reachable (oneByOne size (k + n) 0) := by
  induction n with
  | zero => exact fun h => h
  | succ n ih =>
    intro k h
    rw [← Nat.succ_add_eq_add_succ]
    refine ih ((h.step ⟨.take, rfl, rfl⟩).step ⟨.report [k] [] [] [], rfl, ?_⟩)
    simp [exec, report, reportKind, sortOut, group, oneByOne, range_succ]

theorem frame_oneByOne (hn : n ≠ 0) : ∃ bytes, (oneByOne size n 0).begin.frame = some bytes
      ∧ bytes.length = 12 + 29 * n := by
  have hpending : (oneByOne size n 0).pending ≠ [] := by simp [oneByOne, hn]
  refine ⟨encodeReport 2 ((oneByOne size n 0).pending.map Waiting.entry), ?_, ?_⟩
  · rw [TaskSource.begin, if_neg (by simp [oneByOne]), if_pos hpending]
    rfl
  · rw [length_encodeReport]
    simp [oneByOne, Waiting.entry, rangesOf, extendRanges, Function.comp_def]
    omega

/-- A block of 36158 positions, each reported on its own while the head
cannot be reached. -/
theorem report_too_large : ∃ s bytes,
    (runs 36158 2 anyTime).Reachable s ∧ s.frame = some bytes ∧ maxTaskReport < bytes.length := by
  have hgranted : (runs 36158 2 anyTime).Reachable (oneByOne 36158 0 36158) := by
    have hstart : (runs 36158 2 anyTime).Reachable ⟨36158, 2, [], _, [], none, 0,
      false, false⟩ := .init rfl
    refine (hstart.step ⟨.begin, rfl, rfl⟩).step ⟨.granted 1 [(0, 36158)], rfl, ?_⟩
    simp [exec, TaskSource.begin, oneByOne]
  obtain ⟨bytes, hframe, hlength⟩ := frame_oneByOne (n := 36158) (by decide)
  have hreported := reachable_oneByOne hgranted
  refine ⟨_, bytes, hreported.step ⟨.begin, rfl, rfl⟩, hframe, ?_⟩
  rw [hlength]
  decide

end TaskSource

end Yeto.Dispense
