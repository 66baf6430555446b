/-
The merger of sampler shards (`rl/engine/sample_buffer.py`:
`FileSampleBuffer._merge_shards`).

Every sampler island appends to its own shard and ends it; one merger appends
the new records of all shards to the index, interleaved by time but each shard
in its own order, and an end record once every expected shard has ended.

The merger's readers move when records are READ, and the index keeps what was
WRITTEN. A pass reads first and writes afterwards, in one batch; a write that
fails leaves a prefix of the batch (`Pass.fail`), and raises. A pass sees of
each shard whatever was there when its turn came (`Pass.views`). The rest of a
record is its `body`, which the merger copies.
-/
import Yeto.Lib.System
import Yeto.Lib.SortedMap
import Mathlib.Algebra.GroupWithZero.Nat

namespace Yeto.SampleBuffer

open Lib

structure Sample where
  body : List UInt8
  appendedAt : Nat
deriving Repr, DecidableEq

structure Shard where
  samples : List Sample
  ended : Bool
deriving Repr, DecidableEq

structure Tagged where
  shard : Nat
  shardPos : Nat
  sample : Sample
deriving Repr, DecidableEq

/-- What a reader of a shard gets: sample records, and the end record. -/
inductive ShardRecord
  | sample (t : Tagged)
  | stop
deriving Repr, DecidableEq

inductive IndexRecord
  | sample (pos : Nat) (t : Tagged)
  | stop (pos : Nat)
deriving Repr, DecidableEq

def Shard.tagged (shard : Nat) (s : Shard) : List Tagged :=
  s.samples.zipIdx.map fun e => ⟨shard, e.2, e.1⟩

def Shard.records (shard : Nat) (s : Shard) : List ShardRecord :=
  (s.tagged shard).map .sample ++ if s.ended then [.stop] else []

def ShardRecord.tagged : ShardRecord → Option Tagged
  | .sample t => some t
  | .stop => none

def IndexRecord.tagged : IndexRecord → Option Tagged
  | .sample _ t => some t
  | .stop _ => none

def IndexRecord.pos : IndexRecord → Nat
  | .sample pos _ => pos
  | .stop pos => pos

def mergedOf (shard : Nat) (index : List IndexRecord) : List Tagged :=
  (index.filterMap IndexRecord.tagged).filter fun t => decide (t.shard = shard)

def indexEnded (index : List IndexRecord) : Bool := index.any fun r => r.tagged.isNone

/-- The merger's memory: records read of each shard it has seen, and the
shards whose end it has read. -/
structure Merger where
  readers : SortedMap Nat Nat
  ended : List Nat

def Merger.new : Merger := ⟨.empty, []⟩

/-- Read what is new in a shard of which `seen` records are visible. A
shard seen for the first time is read from behind its merged records. -/
def Merger.readShard (index : List IndexRecord) (shards : Nat → Shard)
    (m : Merger) (shard seen : Nat) : List Tagged × Merger :=
  let pos := (m.readers.find shard).getD (mergedOf shard index).length
  let fresh := (((shards shard).records shard).take seen).drop pos
  (fresh.filterMap ShardRecord.tagged,
    { readers := m.readers.insert shard (pos + fresh.length)
      ended := if fresh.contains .stop then shard :: m.ended else m.ended })

def Merger.readAll (index : List IndexRecord) (shards : Nat → Shard) :
    List (Nat × Nat) → Merger → List (Nat × List Tagged) × Merger
  | [], m => ([], m)
  | view :: views, m =>
    let first := m.readShard index shards view.1 view.2
    let rest := readAll index shards views first.2
    ((view.1, first.1) :: rest.1, rest.2)

/-- The order of `heapq.merge`: by time, then by shard. -/
def Tagged.before (x y : Tagged) : Bool := decide (x.sample.appendedAt < y.sample.appendedAt)
    || (decide (x.sample.appendedAt = y.sample.appendedAt) && decide (x.shard ≤ y.shard))

def leastHead : List (Nat × List Tagged) → Option Tagged
  | [] => none
  | (_, []) :: rest => leastHead rest
  | (_, x :: _) :: rest =>
    match leastHead rest with
    | none => some x
    | some y => if x.before y then some x else some y

def popHead (shard : Nat) (lists : List (Nat × List Tagged)) : List (Nat × List Tagged) :=
  lists.map fun e => if e.1 = shard then (e.1, e.2.tail) else e

/-- `heapq.merge`: again and again the least of the first records. The fuel
is the number of records. -/
def heapMerge : Nat → List (Nat × List Tagged) → List Tagged
  | 0, _ => []
  | fuel + 1, lists =>
    match leastHead lists with
    | none => []
    | some t => t :: heapMerge fuel (popHead t.shard lists)

def totalLength (lists : List (Nat × List Tagged)) : Nat := (lists.map fun e => e.2.length).sum

/-- The shards that must all have ended: those named, or those seen. -/
def Merger.expected (named : Option (List Nat)) (m : Merger) : List Nat := named.getD m.readers.keys

/-- The batch of a pass, without positions; `none` is the end record. -/
def Merger.batch (named : Option (List Nat)) (m : Merger)
    (new : List (Nat × List Tagged)) : List (Option Tagged) :=
  (heapMerge (totalLength new) new).map some
    ++ if m.expected named ≠ [] ∧ ∀ s ∈ m.expected named, s ∈ m.ended
      then [none] else []

def numbered (start : Nat) : List (Option Tagged) → List IndexRecord
  | [] => []
  | some t :: rest => .sample start t :: numbered (start + 1) rest
  | none :: rest => .stop start :: numbered (start + 1) rest

structure Pass where
  /-- The visible shards in the order of their names, each with the number
  of its records that are visible when it is read. -/
  views : List (Nat × Nat)
  fail : Option Nat

/-- What reaches the index file of a batch. -/
def Pass.written (p : Pass) (batch : List (Option Tagged)) : List (Option Tagged) :=
  match p.fail with
  | none => batch
  | some k => batch.take k

structure MergeWorld where
  shards : Nat → Shard
  index : List IndexRecord
  merger : Merger
  short : Bool

def MergeWorld.new : MergeWorld := ⟨fun _ => ⟨[], false⟩, [], .new, false⟩

def MergeWorld.merge (named : Option (List Nat)) (w : MergeWorld) (p : Pass) : MergeWorld :=
  let read := w.merger.readAll w.index w.shards p.views
  -- After the data end nothing is written; new records raise.
  if indexEnded w.index then { w with merger := read.2 }
  else
    let batch := read.2.batch named read.1
    { w with
      index := w.index ++ numbered w.index.length (p.written batch)
      merger := read.2
      short := w.short || decide ((p.written batch).length < batch.length) }

inductive MergeOp
  | append (shard : Nat) (s : Sample)
  | endShard (shard : Nat)
  | pass (p : Pass)
  | restart

def MergeWorld.setShard (w : MergeWorld) (shard : Nat) (s : Shard) : MergeWorld :=
  { w with shards := Function.update w.shards shard s }

def MergeWorld.exec (named : Option (List Nat)) (w : MergeWorld) : MergeOp → Option MergeWorld
  | .append shard s =>
    let old := w.shards shard
    if old.ended then none
    else some (w.setShard shard ⟨old.samples ++ [s], false⟩)
  | .endShard shard =>
    let old := w.shards shard
    if old.ended then none
    else some (w.setShard shard ⟨old.samples, true⟩)
  | .pass p =>
    if (p.views.map Prod.fst).Pairwise (· < ·) then some (w.merge named p)
    else none
  | .restart => some { w with merger := .new, short := false }

def mergeRuns (named : Option (List Nat))
    (allowed : MergeWorld → MergeOp → Bool) : System MergeWorld :=
  .guarded .new allowed (MergeWorld.exec named)

end Yeto.SampleBuffer
