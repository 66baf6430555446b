/-
The island's side of the dispenser (`TaskSource`, `ranges_of` and
`encode_report` of `yeto/rl/engine/task_dispense.py`).

A worker has one request on the wire, sent again until the head answers it.
All the reports that wait go into one TASK_REPORT. Each critical section is
one operation. Clock and lease only delay an operation and are left out.
-/
import Yeto.Dispense.Basic
import Yeto.Lib.Bytes
import Yeto.Lib.System

namespace Yeto.Dispense

open Lib

def ReportKind.code : ReportKind → UInt8
  | .trained => 1
  | .dropped => 2
  | .requeue => 3
  | .release => 4

def encodeReport (seq : Nat) (entries : List ReportEntry) : List UInt8 :=
  le 8 seq ++ le 4 entries.length ++ entries.flatMap fun e =>
    le 8 e.block ++ e.kind.code :: le 4 e.ranges.length
      ++ e.ranges.flatMap fun r => le 8 r.1 ++ le 8 r.2

/-- The largest TASK_REPORT the head reads. -/
def maxTaskReport : Nat := 2 ^ 20 + 12

def extendRanges (out : List (Nat × Nat)) (p : Nat) : List (Nat × Nat) :=
  match out.getLast? with
  | some (a, b) => if b = p then out.dropLast ++ [(a, p + 1)] else out ++ [(p, p + 1)]
  | none => [(p, p + 1)]

def rangesOf (positions : List Nat) : List (Nat × Nat) :=
  (positions.dedup.insertionSort (· ≤ ·)).foldl extendRanges []

structure Waiting where
  block : Nat
  kind : ReportKind
  items : List Nat

def Waiting.entry (w : Waiting) : ReportEntry := ⟨w.block, w.kind, rangesOf w.items⟩

inductive Wire
  | claim (count : Nat)
  | report (body : List Waiting)

structure TaskSource where
  block : Nat
  prefetchBlocks : Nat
  /-- Granted positions that are not taken, with their blocks. -/
  ready : List (Nat × Nat) := []
  /-- The block of each position taken and not reported. -/
  owner : Nat → Option Nat := fun _ => none
  pending : List Waiting := []
  inflight : Option (Nat × Wire) := none
  seq : Nat := 0
  ended : Bool := false
  closing : Bool := false

/-- The critical sections of `take`, `report`, `release_ready`, `close` and
the worker; the answers are the head's. -/
inductive SourceOp
  | take
  | report (trained dropped requeue release : List Nat)
  | holdReady
  | stopClaims
  | begin
  | granted (block : Nat) (ranges : List (Nat × Nat))
  | wait
  | ended
  | ack
  | fenced

namespace TaskSource

def group (p block : Nat) : List (Nat × List Nat) → List (Nat × List Nat)
  | [] => [(block, [p])]
  | (b, items) :: rest =>
    if b = block then (b, items ++ [p]) :: rest
    else (b, items) :: group p block rest

def sortOut (acc : (Nat → Option Nat) × List (Nat × List Nat)) (p : Nat) :
    (Nat → Option Nat) × List (Nat × List Nat) :=
  match acc.1 p with
  | none => acc
  | some block => (Function.update acc.1 p none, group p block acc.2)

def reportKind (s : TaskSource) (kind : ReportKind) (positions : List Nat) : TaskSource :=
  let r := positions.foldl sortOut (s.owner, [])
  { s with
    owner := r.1
    pending := s.pending ++ r.2.map fun e => ⟨e.1, kind, e.2⟩ }

def report (s : TaskSource) (trained dropped requeue release : List Nat) : TaskSource :=
  (((s.reportKind .trained trained).reportKind .dropped dropped).reportKind
    .requeue requeue).reportKind .release release

def begin (s : TaskSource) : TaskSource :=
  if s.inflight.isSome then s
  else if s.pending ≠ [] then
    { s with
      seq := s.seq + 1
      inflight := some (s.seq + 1, .report s.pending)
      pending := [] }
  else if !s.ended && !s.closing && s.ready.length < s.block * s.prefetchBlocks then
    { s with
      seq := s.seq + 1
      inflight := some (s.seq + 1, .claim s.block) }
  else s

def exec (s : TaskSource) : SourceOp → Option TaskSource
  | .take =>
    match s.ready with
    | [] => none
    | (p, block) :: ready => some { s with ready, owner := Function.update s.owner p (some block) }
  | .report trained dropped requeue release => some (s.report trained dropped requeue release)
  | .holdReady =>
    some { s with
      ready := []
      owner := s.ready.foldl (fun owner e => Function.update owner e.1 (some e.2)) s.owner }
  | .stopClaims => some { s with closing := true }
  | .begin => some s.begin
  | .granted block ranges =>
    match s.inflight with
    | some (_, .claim _) =>
      some { s with
        inflight := none
        ready := s.ready ++ ranges.flatMap fun r =>
          (List.range' r.1 (r.2 - r.1)).map (·, block) }
    | _ => none
  | .wait =>
    match s.inflight with
    | some (_, .claim _) => some { s with inflight := none }
    | _ => none
  | .ended =>
    match s.inflight with
    | some (_, .claim _) => some { s with inflight := none, ended := true }
    | _ => none
  | .ack =>
    match s.inflight with
    | some (_, .report _) => some { s with inflight := none }
    | _ => none
  | .fenced =>
    some { s with
      ready := [], owner := fun _ => none, pending := [], inflight := none }

def frame (s : TaskSource) : Option (List UInt8) :=
  match s.inflight with
  | some (seq, .report body) => some (encodeReport seq (body.map Waiting.entry))
  | _ => none

abbrev runs (block prefetchBlocks : Nat)
    (allowed : TaskSource → SourceOp → Bool) : System TaskSource :=
  .guarded { block, prefetchBlocks } allowed exec

end TaskSource

end Yeto.Dispense
