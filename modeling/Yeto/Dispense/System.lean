/-
The dispenser as a system: the requests it serves, the other channels of the
shared member table, checkpoint records and restarts, and the log.

A `World` is a dispenser process with what outlives it: the log before it
started and the records taken so far. A restart builds a FRESH dispenser from
any of the records and continues the log there. A join of another channel is
made only after `is_retired` was asked. `settledOf` and `putBackOf` are read
off the `report` lines of the log.
-/
import Yeto.Lib.System
import Yeto.Lib.Ledger
import Yeto.Lib.Intervals
import Yeto.Dispense.Record

namespace Yeto.Dispense

open Lib List

variable {es : List DispenseEvent}

/-- A request of an island, or a step of another channel. -/
inductive Op
  | openWith (holder : Holder) (data : DataDecl) (accept : Option (List Nat)) (now : Nat)
  | claim (holder : Holder) (seq wanted now : Nat)
  | report (holder : Holder) (seq : Nat) (entries : List ReportEntry) (now : Nat)
  | heartbeat (holder : Holder) (now : Nat)
  | expire (now : Nat)
  | memberJoin (holder : Holder) (now : Nat)
  | memberTouch (holder : Holder) (now : Nat)
  | memberRetire (holder : Holder) (reason : Retired)
  | memberExpire (now : Nat)

def joinElsewhere (m : Members) (holder : Holder) (now : Nat) : Members :=
  if m.isRetired holder then m else (m.join holder now).2

/-- What a step of another channel does to the member table. -/
def Op.onMembers (m : Members) : Op → Members
  | .memberJoin holder now => joinElsewhere m holder now
  | .memberTouch holder now => (m.touch holder now).2
  | .memberRetire holder reason => m.retire holder reason
  | .memberExpire now => (m.expire now).2
  | _ => m

def Dispenser.apply (d : Dispenser) : Op → Dispenser
  | .openWith holder data accept now => (d.openWith holder data accept now).2
  | .claim holder seq wanted now => (d.claim holder seq wanted now).2
  | .report holder seq entries now => (d.report holder seq entries now).2
  | .heartbeat holder now => (d.heartbeat holder now).2
  | .expire now => (d.expire now).2
  | op => { d with members := op.onMembers d.members }

structure World where
  disp : Dispenser
  /-- The log written out before: earlier processes, drained events. -/
  before : List DispenseEvent
  records : List (List UInt8 × List DispenseEvent)

def World.log (w : World) : List DispenseEvent := w.before ++ w.disp.events

inductive World.Step (cfg : DispenseConfig) (lease : Nat) : World → World → Prop
  | op (w : World) (o : Op) : Step cfg lease w { w with disp := w.disp.apply o }
  | drain (w : World) : Step cfg lease w { w with
          disp := w.disp.takeEvents.2
          before := w.before ++ w.disp.takeEvents.1 }
  | record (w : World) : Step cfg lease w { w with
          disp := w.disp.checkpointRecord.2
          records := (w.disp.checkpointRecord.1, w.log) :: w.records }
  | restart (w : World) (bytes : List UInt8) (log : List DispenseEvent) (d : Dispenser) :
      (bytes, log) ∈ w.records →
      (Dispenser.withMembers cfg (Members.new lease)).restorePersisted bytes = .ok d →
      Step cfg lease w ⟨d, log, w.records⟩

/-- The runs of a dispenser with configuration `cfg` on a member table
with the given lease. -/
def runs (cfg : DispenseConfig) (lease : Nat) : System World where
  init w := w = ⟨Dispenser.withMembers cfg (Members.new lease), [], []⟩
  step := World.Step cfg lease

def positions (ranges : List (Nat × Nat)) : Multiset Nat :=
  (ranges.map fun r => Multiset.Ico r.1 r.2).sum

/-- The positions an event settles: trained, dropped, or a requeue
refused as exhausted. -/
def DispenseEvent.settled : DispenseEvent → Multiset Nat
  | .report _ _ .trained ranges _ => positions ranges
  | .report _ _ .dropped ranges _ => positions ranges
  | .report _ _ .requeue _ exhausted => positions exhausted
  | _ => 0

/-- The positions an event puts back by a successful requeue. -/
def DispenseEvent.putBack : DispenseEvent → Multiset Nat
  | .report _ _ .requeue ranges exhausted => positions ranges - positions exhausted
  | _ => 0

def DispenseEvent.granted : DispenseEvent → Multiset Nat
  | .grant _ _ ranges _ _ => positions ranges
  | _ => 0

def settledOf (log : List DispenseEvent) : Multiset Nat := (log.map DispenseEvent.settled).sum

def putBackOf (log : List DispenseEvent) : Multiset Nat := (log.map DispenseEvent.putBack).sum

theorem settledOf_append (a b : List DispenseEvent) :
    settledOf (a ++ b) = settledOf a + settledOf b := by
  unfold settledOf
  rw [map_append, sum_append]

theorem putBackOf_append (a b : List DispenseEvent) :
    putBackOf (a ++ b) = putBackOf a + putBackOf b := by
  unfold putBackOf
  rw [map_append, sum_append]

def Quiet (es : List DispenseEvent) : Prop :=
  ∀ e ∈ es, e.settled = 0 ∧ e.putBack = 0 ∧ e.granted = 0

theorem Quiet.append {a b : List DispenseEvent} (ha : Quiet a) (hb : Quiet b) : Quiet (a ++ b) := by
  intro e he
  rcases mem_append.1 he with he | he
  · exact ha e he
  · exact hb e he

theorem Quiet.settledOf_eq (h : Quiet es) : settledOf es = 0 := by
  refine sum_eq_zero fun x hx => ?_
  obtain ⟨e, he, rfl⟩ := mem_map.1 hx
  exact (h e he).1

theorem Quiet.putBackOf_eq (h : Quiet es) : putBackOf es = 0 := by
  refine sum_eq_zero fun x hx => ?_
  obtain ⟨e, he, rfl⟩ := mem_map.1 hx
  exact (h e he).2.1

@[simp] theorem positions_nil : positions [] = 0 := rfl

@[simp] theorem positions_cons (r : Nat × Nat) (rs : List (Nat × Nat)) :
    positions (r :: rs) = Multiset.Ico r.1 r.2 + positions rs := by
  unfold positions
  rw [map_cons, sum_cons]

def Span.cells (s : Span) : Multiset (Nat × Nat) := tagged s.start s.stop s.redo

def cellsOf (spans : List Span) : Multiset (Nat × Nat) := (spans.map Span.cells).sum

def queueCells (streams : List StreamState) : Multiset (Nat × Nat) :=
  ∑ s ∈ Finset.range streams.length, cellsOf (streams.getD s .default).queue

def heldCells (blocks : SortedMap Nat Block) : Multiset (Nat × Nat) :=
  blocks.sum fun _ b => cellsOf b.spans

def givenOf (streams : List StreamState) : Multiset Nat := ∑ s ∈ Finset.range streams.length,
    Multiset.Ico (s * 2 ^ 40) (s * 2 ^ 40 + (streams.getD s .default).next)

/-- The ledger a dispenser and its log stand for. -/
def ledgerOf (d : Dispenser) (log : List DispenseEvent) : Ledger Nat where
  pending := queueCells d.streams
  held := heldCells d.blocks
  done := settledOf log
  putBack := putBackOf log
  given := givenOf d.streams

/-- No stream has given out more positions than its spans can express: an
odd stream fewer than `2 ^ 40`, an even one at most `2 ^ 40`. -/
def Fits (streams : List StreamState) : Prop :=
  ∀ s < streams.length, (streams.getD s .default).next < 2 ^ 40
    ∨ (s % 2 = 0 ∧ (streams.getD s .default).next = 2 ^ 40)

structure InStream (s next : Nat) (span : Span) : Prop where
  lower : s * 2 ^ 40 ≤ span.start
  nonempty : span.start < span.stop
  upper : span.stop ≤ s * 2 ^ 40 + next

end Yeto.Dispense
