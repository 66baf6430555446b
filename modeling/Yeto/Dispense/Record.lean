/-
The dispenser's persisted record (`encode_persisted`, `restore_persisted` and
the `Reader` of `syncer/src/dispense.rs`).

The held spans are written as if every holder were reclaimed. Every count is
cast to its field's width as the source casts it, so a list longer than the
field can count is written whole behind a count that is too small. Only the
text of a UTF-8 error is shortened.
-/
import Yeto.Lib.Bytes
import Yeto.Dispense.Model

namespace Yeto.Dispense

open Lib

def persistMagicV1 : List UInt8 := [0x59, 0x44, 0x53, 0x31]

def persistMagic : List UInt8 := [0x59, 0x44, 0x53, 0x32]

def encodeStream (e : StreamDecl × StreamState) : List UInt8 :=
  le 8 e.1.rows ++ (le 8 e.1.weight ++ (le 2 e.1.name.utf8ByteSize
    ++ (e.1.name.toByteArray.data.toList ++ (le 8 e.2.next ++ le 8 e.2.passesStarted))))

def encodeSpan (s : Span) : List UInt8 := le 8 s.start ++ (le 8 s.stop ++ le 4 s.redo)

def encodeHolder (h : Holder) : List UInt8 := le 4 h.learnerId.val ++ le 8 h.incarnation.val

def encodeTotals (t : Totals) : List UInt8 :=
  le 8 t.granted ++ (le 8 t.trained ++ (le 8 t.dropped ++ (le 8 t.requeued
    ++ (le 8 t.exhausted ++ (le 8 t.released ++ le 8 t.reclaimed)))))

def zeroFingerprint : Fingerprint := ⟨List.replicate 32 0, by simp⟩

namespace Dispenser

def heldSpans (d : Dispenser) : List Span := sortSpans (d.blocks.values.flatMap Block.spans)

/-- The queue of the record: each stream's held spans, then its queue. -/
def recordQueue (d : Dispenser) : List Span := d.streams.zipIdx.flatMap fun e =>
    (d.heldSpans.filter fun span => decide (streamOf span.start = e.2)) ++ e.1.queue

/-- The totals of the record: the held positions count as reclaimed. -/
def recordTotals (d : Dispenser) : Totals :=
  { d.totals with reclaimed := wadd d.totals.reclaimed (lenSum d.heldSpans) }

/-- The state as if every live holder were reclaimed. -/
def encodePersisted (d : Dispenser) : List UInt8 :=
  let queue := d.recordQueue
  let retired := d.members.fenceList
  let data := d.data.getD ⟨[], zeroFingerprint⟩
  persistMagic ++ (le 1 (if d.data.isSome then 1 else 0)
    ++ (data.fingerprint.1 ++ (le 2 data.streams.length
    ++ ((data.streams.zip d.streams).flatMap encodeStream
    ++ (le 8 d.nextBlock ++ (encodeTotals d.recordTotals
    ++ (le 4 queue.length ++ (queue.flatMap encodeSpan
    ++ (le 4 retired.length ++ retired.flatMap encodeHolder)))))))))

/-- `encode_persisted` for a checkpoint cut, logged as such. -/
def checkpointRecord (d : Dispenser) : List UInt8 × Dispenser := (d.encodePersisted,
    d.log [.checkpoint d.nextPosition d.queued d.outstanding])

end Dispenser

namespace Reader

def truncated : String := "dispense record is truncated"

def u8 : Lib.Reader Nat := Lib.Reader.word truncated 1
def u16 : Lib.Reader Nat := Lib.Reader.word truncated 2
def u32 : Lib.Reader Nat := Lib.Reader.word truncated 4
def u64 : Lib.Reader Nat := Lib.Reader.word truncated 8

def take (n : Nat) : Lib.Reader (List UInt8) := Lib.Reader.take truncated n

def fingerprint : Lib.Reader Fingerprint := do
  let bytes ← take 32
  pure ⟨(bytes ++ List.replicate 32 0).take 32, by simp⟩

def totals : Lib.Reader Totals := do
  let granted ← u64
  let trained ← u64
  let dropped ← u64
  let requeued ← u64
  let exhausted ← u64
  let released ← u64
  let reclaimed ← u64
  pure ⟨granted, trained, dropped, requeued, exhausted, released, reclaimed⟩

def span : Lib.Reader Span := do
  let start ← u64
  let stop ← u64
  let redo ← u32
  pure ⟨start, stop, redo⟩

def spans : Lib.Reader (List Span) := do
  let n ← u32
  let left ← Lib.Reader.rest
  Lib.Reader.ensure (n ≤ left.length / 20)
    "dispense record queue is truncated"
  Lib.Reader.many span n

def holder : Lib.Reader Holder := do
  let learnerId ← u32
  let incarnation ← u64
  pure ⟨Fin.ofNat _ learnerId, Fin.ofNat _ incarnation⟩

def holders : Lib.Reader (List Holder) := do
  let n ← u32
  Lib.Reader.ensure (n ≤ retiredLimit)
    s!"dispense record retires {n} incarnations"
  Lib.Reader.many holder n

def name (len : Nat) : Lib.Reader String := do
  let bytes ← take len
  Lib.Reader.ofExcept (match String.fromUTF8? ⟨bytes.toArray⟩ with
    | some s => .ok s
    | none => .error "invalid utf-8 sequence")

/-- One stream of the record: its declaration, its next position and its
started passes. -/
def stream : Lib.Reader (StreamDecl × (Nat × Nat)) := do
  let rows ← u64
  let weight ← u64
  let len ← u16
  let name ← name len
  let next ← u64
  Lib.Reader.ensure (next ≤ streamPositions)
    s!"dispense record stream has {next} positions"
  let passesStarted ← u64
  pure (⟨rows, weight, name⟩, (next, passesStarted))

end Reader

structure Record where
  data : Option DataDecl
  states : List (Nat × Nat)
  nextBlock : Nat
  totals : Totals
  queue : List Span
  holders : List Holder

namespace Record

def readV1 : Lib.Reader Record := do
  let hasData ← Reader.u8
  let rows ← Reader.u64
  let fp ← Reader.fingerprint
  let next ← Reader.u64
  let nextBlock ← Reader.u64
  let passesStarted ← Reader.u64
  let t ← Reader.totals
  let queue ← Reader.spans
  let holders ← Reader.holders
  Lib.Reader.ensure (hasData ≠ 0 ∨ (next = 0 ∧ queue = []))
    "dispense record has positions but no rows"
  Lib.Reader.ensure (next < streamPositions)
    s!"dispense record has {next} positions"
  let data := if hasData ≠ 0 then some (DataDecl.single rows fp) else none
  pure ⟨data, [(next, passesStarted)], nextBlock, t, queue, holders⟩

def checkData (hasData : Nat) (streams : List StreamDecl) (fp : Fingerprint) :
    Except String (Option DataDecl) :=
  if ¬ ((hasData ≠ 0) ↔ streams ≠ []) then
    .error "dispense record has streams without data or data without streams"
  else if hasData ≠ 0 then
    match (DataDecl.mk streams fp).validate with
    | .error m => .error s!"dispense record: {m}"
    | .ok () => .ok (some ⟨streams, fp⟩)
  else .ok none

def readV2 : Lib.Reader Record := do
  let hasData ← Reader.u8
  let fp ← Reader.fingerprint
  let n ← Reader.u16
  Lib.Reader.ensure (n ≤ maxStreams) s!"dispense record has {n} streams"
  let streams ← Lib.Reader.many Reader.stream n
  let nextBlock ← Reader.u64
  let t ← Reader.totals
  let queue ← Reader.spans
  let holders ← Reader.holders
  let data ← Lib.Reader.ofExcept (checkData hasData (streams.map Prod.fst) fp)
  pure ⟨data, streams.map Prod.snd, nextBlock, t, queue, holders⟩

def read : Lib.Reader Record := do
  let magic ← Reader.take 4
  if magic = persistMagicV1 then readV1
  else do
    Lib.Reader.ensure (magic = persistMagic)
      "dispense record has a bad magic"
    readV2

/-- What a span of the record must satisfy: positions of one declared
stream, below its next position. -/
def spanOk (r : Record) (span : Span) : Bool :=
  let s := streamOf span.start
  let streams := (r.data.map (·.streams.length)).getD 0
  decide (span.start < span.stop) && decide (s < streams) && decide (streamOf (span.stop - 1) = s)
    && decide (localOf (span.stop - 1) < (r.states.getD s (0, 0)).1)

def badSpanText (span : Span) : String :=
  let a := span.start
  let b := span.stop
  let c := span.redo
  s!"dispense record has a bad span Span \x7b start: {a}, end: {b}, redo: {c} \x7d"

def parse (bytes : List UInt8) : Except String Record :=
  match read bytes with
  | .error m => .error m
  | .ok (r, left) =>
    let n := left.length
    if n ≠ 0 then .error s!"dispense record has {n} trailing bytes"
    else
      match r.queue.find? (fun span => !r.spanOk span) with
      | some bad => .error (badSpanText bad)
      | none => .ok r

end Record

/-- Overwrite the counters of the first streams with the record's. -/
def installStates : List StreamState → List (Nat × Nat) → List StreamState
  | st :: streams, (next, passesStarted) :: states =>
    { st with next := next, passesStarted := passesStarted } :: installStates streams states
  | streams, _ => streams

def pushBack (streams : List StreamState) (span : Span) : List StreamState :=
  streams.modify (streamOf span.start) fun st =>
    { st with queue := st.queue ++ [span] }

namespace Dispenser

def install (d : Dispenser) (r : Record) : Dispenser :=
  let d := match r.data with
    | some data => d.fixData data
    | none => d
  let streams := r.queue.foldl pushBack (installStates d.streams r.states)
  let d : Dispenser := { d with
      streams := streams
      nextBlock := max r.nextBlock 1
      totals := r.totals
      members := d.members.retireAll r.holders .restart }
  d.log [.restore d.nextPosition d.queued r.holders.length]

def restorePersisted (d : Dispenser) (bytes : List UInt8) : Except String Dispenser :=
  if ¬ (d.data.isNone = true ∧ d.live.entries.isEmpty = true) then
    .error "restore needs a fresh dispenser"
  else
    match Record.parse bytes with
    | .error m => .error m
    | .ok r => .ok (d.install r)

end Dispenser

end Yeto.Dispense
