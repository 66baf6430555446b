/-
The rows of a round as arithmetic runs (`row_runs`), and back
(`rows_of_runs`, `run_row_count`).

A run opens with the difference of its first two rows and goes on while the
difference stays, so only the last run can be a single row. The runs expand
to the sorted rows (`runsFrom_spec`), and they ascend because their expansion
does.
-/
import Mathlib.Data.Finset.Sort

namespace Yeto.RowRuns

open List

structure Run where
  first : Int
  last : Int
  step : Int

def progression (a d : Int) (n : Nat) : List Int := (range n).map fun i : Nat => a + i * d

def Run.rows (run : Run) : List Int :=
  progression run.first run.step ((run.last - run.first) / run.step + 1).toNat

/-- The rows that continue a run. -/
def scan (step last : Int) : List Int → Int × List Int
  | [] => (last, [])
  | row :: rows => if row - last = step then scan step row rows else (last, row :: rows)

variable (a d step last : Int) (n : Nat)

theorem progression_succ : progression a d (n + 1) = a :: progression (a + d) d n := by
  rw [progression, range_succ_eq_map, map_cons, map_map]
  refine cons_eq_cons.2 ⟨by simp, map_congr_left fun i _ => ?_⟩
  show a + (i + 1 : Nat) * d = a + d + i * d
  grind

theorem scan_takes (rows : List Int) :
    ∃ n : Nat, rows = progression (last + step) step n ++ (scan step last rows).2 ∧
      (scan step last rows).1 = last + n * step := by
  induction rows generalizing last with
  | nil => exact ⟨0, by simp [scan, progression]⟩
  | cons row rows ih =>
    by_cases goes : row - last = step
    · obtain ⟨n, taken, ends⟩ := ih row
      have next : last + step = row := by omega
      refine ⟨n + 1, ?_, ?_⟩
      · rw [progression_succ, next, cons_append, scan, if_pos goes, ← taken]
      · rw [scan, if_pos goes, ends]
        grind
    · exact ⟨0, by simp [scan, goes, progression]⟩

def runsFrom : List Int → List Run
  | [] => []
  | [first] => [⟨first, first, 1⟩]
  | first :: second :: rows =>
    let taken := scan (second - first) second rows
    ⟨first, taken.1, second - first⟩ :: runsFrom taken.2
termination_by ordered => ordered.length
decreasing_by
  obtain ⟨n, split, -⟩ := scan_takes (second - first) second rows
  grind

def ordered (rows : List Int) : List Int := rows.toFinset.sort

def rowRuns (rows : List Int) : List Run := runsFrom (ordered rows)

def runLength (run : Run) : Except String Int :=
  if run.step < 1 ∨ run.last < run.first ∨ (run.last - run.first) % run.step ≠ 0 then
    .error s!"malformed row run [{run.first}, {run.last}, {run.step}]"
  else .ok ((run.last - run.first) / run.step + 1)

def runRowCount : List Run → Except String Int
  | [] => .ok 0
  | run :: runs => do return (← runLength run) + (← runRowCount runs)

def rowsOfRuns : List Run → Except String (List Int)
  | [] => .ok []
  | run :: runs => do
    let _ ← runLength run
    return run.rows ++ (← rowsOfRuns runs)

/-- What `_run_length` checks: the last row is `n` steps after the first. -/
inductive Run.Formed : Run → Prop
  | of {d : Int} (up : 0 < d) (a : Int) (n : Nat) : Formed ⟨a, a + n * d, d⟩

variable {d}

theorem run_spec (up : 0 < d) : runLength ⟨a, a + n * d, d⟩ = .ok (n + 1) ∧
    Run.rows ⟨a, a + n * d, d⟩ = progression a d (n + 1) := by
  have off : a + n * d - a = n * d := by omega
  have whole : n * d / d = n := Int.mul_ediv_cancel _ (by omega)
  have ahead : 0 ≤ n * d := Int.mul_nonneg (Int.natCast_nonneg n) up.le
  have passes : ¬ (d < 1 ∨ a + n * d < a ∨ (a + n * d - a) % d ≠ 0) := by
    rw [off, Int.mul_emod_left]
    omega
  constructor
  · rw [runLength, if_neg passes, off, whole]
  · rw [Run.rows, off, whole]
    rfl

theorem expand_formed {runs : List Run} (formed : ∀ run ∈ runs, run.Formed) :
    rowsOfRuns runs = .ok (runs.flatMap Run.rows) ∧
      runRowCount runs = .ok (runs.flatMap Run.rows).length := by
  induction runs with
  | nil => exact ⟨rfl, rfl⟩
  | cons run runs ih =>
    obtain ⟨rows, count⟩ := ih fun r mem => formed r (mem_cons_of_mem _ mem)
    obtain ⟨up, a, n⟩ := formed run mem_cons_self
    obtain ⟨passes, all⟩ := run_spec a n up
    rw [rowsOfRuns, runRowCount, rows, count, passes]
    simp [bind, Except.bind, pure, Except.pure, all, progression]

/-- The runs are well formed, have all rows, and are few. -/
theorem runsFrom_spec (ordered : List Int) (up : ordered.Pairwise (· < ·)) :
    (∀ run ∈ runsFrom ordered, run.Formed) ∧ (runsFrom ordered).flatMap Run.rows = ordered ∧
      2 * (runsFrom ordered).length ≤ ordered.length + 1 := by
  fun_induction runsFrom ordered with
  | case1 => simp
  | case2 first =>
    have formed : Run.Formed ⟨first, first, 1⟩ := by simpa using Run.Formed.of Int.one_pos first 0
    have single : Run.rows ⟨first, first, 1⟩ = [first] := by simp [Run.rows, progression]
    simp [single, formed]
  | case3 first second rows taken ih =>
    obtain ⟨n, split, ends⟩ := scan_takes (second - first) second rows
    have less : 0 < second - first := by
      have := (pairwise_cons.1 up).1 second mem_cons_self
      omega
    have last : taken.1 = first + (n + 1 : Nat) * (second - first) := by
      rw [show taken.1 = _ from ends]
      grind
    -- the run is the two rows and what the inner loop took
    have head : Run.rows ⟨first, taken.1, second - first⟩ ++ taken.2 = first :: second :: rows := by
      rw [last, (run_spec _ _ less).2, progression_succ, progression_succ,
        show first + (second - first) = second by omega, cons_append, cons_append, ← split]
    have rest : taken.2.Pairwise (· < ·) := by
      rw [← head] at up
      exact (pairwise_append.1 up).2.1
    obtain ⟨formed, rows_eq, few⟩ := ih rest
    refine ⟨?_, ?_, ?_⟩
    · rw [forall_mem_cons, last]
      exact ⟨.of less _ _, formed⟩
    · rw [flatMap_cons, rows_eq, head]
    · have := congrArg length split
      simp only [length_cons, length_append] at this ⊢
      grind

theorem scan_progression : (scan step last (progression (last + step) step n)).2 = [] := by
  induction n generalizing last with
  | zero => rfl
  | succ n ih =>
    rw [progression_succ, scan, if_pos (by omega)]
    exact ih (last + step)

theorem runsFrom_progression (d : Int) : ∃ run, runsFrom (progression a d (n + 1)) = [run] := by
  cases n with
  | zero => exact ⟨⟨a, a, 1⟩, by simp [progression, runsFrom]⟩
  | succ n =>
    rw [progression_succ, progression_succ, runsFrom, show a + d - a = d by omega,
      scan_progression, runsFrom]
    exact ⟨_, rfl⟩

theorem progression_up (up : 0 < d) : (progression a d n).Pairwise (· < ·) := by
  refine pairwise_map.2 (pairwise_lt_range.imp fun {i j} less => ?_)
  have := Int.mul_lt_mul_of_pos_right (Int.ofNat_lt.2 less) up
  omega

structure Recorded (rows : List Int) (runs : List Run) : Prop where
  lossless : rowsOfRuns runs = .ok (ordered rows)
  counted : runRowCount runs = .ok rows.toFinset.card
  formed : ∀ run ∈ runs, run.Formed
  ascending : runs.Pairwise fun run later => run.last < later.first
  small : runs.length ≤ (rows.toFinset.card + 1) / 2
  single : ∀ (a d : Int) (n : Nat), 0 < d → (∀ x, x ∈ rows ↔ ∃ i < n + 1, a + i * d = x) →
    ∃ run, runs = [run]

theorem rowRuns_recorded (rows : List Int) : Recorded rows (rowRuns rows) := by
  have up := rows.toFinset.sortedLT_sort
  obtain ⟨formed, rows_eq, few⟩ := runsFrom_spec _ up.pairwise
  obtain ⟨expands, counts⟩ := expand_formed formed
  rw [rows_eq] at expands counts
  rw [Finset.length_sort] at counts few
  refine ⟨expands, counts, formed, ?_, by rw [rowRuns, ordered]; omega, fun a d n pos same => ?_⟩
  · have apart := (pairwise_flatMap.1 (rows_eq ▸ up.pairwise)).2
    refine apart.imp_of_mem fun mem mem' less => less _ ?_ _ ?_
    · obtain ⟨pos, a, n⟩ := formed _ mem
      rw [(run_spec a n pos).2]
      exact mem_map.2 ⟨n, by simp⟩
    · obtain ⟨pos, a, n⟩ := formed _ mem'
      rw [(run_spec a n pos).2]
      exact mem_map.2 ⟨0, by simp⟩
  · have all : rows.toFinset.sort = progression a d (n + 1) :=
      up.eq_of_mem_iff (progression_up a _ pos).sortedLT fun x => by simp [same, progression]
    rw [rowRuns, ordered, all]
    exact runsFrom_progression a n d

end Yeto.RowRuns
