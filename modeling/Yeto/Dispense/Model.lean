/-
The task dispenser's operations (`syncer/src/dispense.rs`), as pure functions.

An early `return Err` keeps whatever was changed before it, so a refusal is
NOT "no new state". Where the source indexes a stream out of range it panics;
the model carries on with a default. `walkSpans` need not end on a damaged
block: it carries fuel, enough for every block of non-empty spans.
-/
import Yeto.Dispense.Basic
import Mathlib.Algebra.Ring.Int.Defs

namespace Yeto.Dispense

open Lib

def hex8 (fp : Fingerprint) : String := String.join ((fp.1.take 8).map fun b =>
    String.ofList [Nat.digitChar (b.toNat / 16), Nat.digitChar (b.toNat % 16)])

def mismatchText (holder : Holder) (data run : DataDecl) : String :=
  let id := holder.learnerId.val
  let rows := data.totalRows
  let n := data.streams.length
  let fp := hex8 data.fingerprint
  let runRows := run.totalRows
  let runN := run.streams.length
  let runFp := hex8 run.fingerprint
  let same := if run.fingerprint = data.fingerprint
    then " (same rows, other streams or weights)" else ""
  s!"island {id} declares {rows} rows in {n} stream(s) with fingerprint {fp}, "
    ++ s!"the run has {runRows} rows in {runN} stream(s) with {runFp}{same}"

def noLeaseText (holder : Holder) : String :=
  let inc := hex016 holder.incarnation.val
  let id := holder.learnerId.val
  s!"incarnation {inc} of island {id} holds no lease"

def notHeldText (block : Nat) (holder : Holder) : String :=
  let inc := hex016 holder.incarnation.val
  let id := holder.learnerId.val
  s!"block {block} is not held by incarnation {inc} of island {id}"

def sizeText (wanted maxBlock : Nat) : String :=
  s!"claim of {wanted} positions (1..={maxBlock} allowed)"

def lenSum (spans : List Span) : Nat := (spans.map Span.len).foldl wadd 0

def count (ranges : List (Nat × Nat)) : Nat := (ranges.map fun r => wsub r.2 r.1).foldl wadd 0

def Span.range (s : Span) : Nat × Nat := (s.start, s.stop)

def rangeLe (a b : Nat × Nat) : Bool :=
  decide (a.1 < b.1) || (decide (a.1 = b.1) && decide (a.2 ≤ b.2))

def sortSpans (spans : List Span) : List Span := spans.insertionSort fun a b => a.start ≤ b.start

def pushSpan (span : Span) (streams : List StreamState) : List StreamState :=
  streams.modify (streamOf span.start) fun st =>
    { st with queue := span :: st.queue }

/-- Take blocks out of the map, with their spans. -/
def takeBlocks : List Nat → SortedMap Nat Block → List Span × SortedMap Nat Block
  | [], blocks => ([], blocks)
  | id :: ids, blocks =>
    match blocks.find id with
    | some b =>
      let r := takeBlocks ids (blocks.erase id)
      (b.spans ++ r.1, r.2)
    | none => takeBlocks ids blocks

def ReclaimReason.retired : ReclaimReason → Retired
  | .expired => .expired
  | .superseded => .superseded

def acceptList (streams : Nat) (accept : Option (List Nat)) : Except DispenseError (List Nat) :=
  match accept with
  | none => .ok (List.range streams)
  | some ids =>
    let list := (ids.insertionSort (· ≤ ·)).dedup
    if list.isEmpty then .error (.refused "the island accepts no stream")
    else
      match list.find? (fun s => decide (s ≥ streams)) with
      | some bad => .error (.refused
          s!"the island accepts stream {bad}; the run has {streams}")
      | none => .ok list

namespace Dispenser

def pushFront (d : Dispenser) (spans : List Span) : Dispenser :=
  { d with streams := (sortSpans spans).foldr pushSpan d.streams }

/-- Retire `holder` and return its unreported positions to the queue
front. -/
def reclaim (d : Dispenser) (holder : Holder) (reason : ReclaimReason) : Nat × Dispenser :=
  match d.live.find holder with
  | none => (0, d)
  | some live =>
    let taken := takeBlocks live.blocks.keys d.blocks
    let spans := taken.1
    let positions := lenSum spans
    let ranges := (spans.map Span.range).insertionSort fun a b => rangeLe a b = true
    let d : Dispenser := { d with
        live := d.live.erase holder
        members := d.members.retire holder reason.retired
        blocks := taken.2
        totals := { d.totals with
          reclaimed := wadd d.totals.reclaimed positions }
        events := d.events ++ [.reclaim holder reason ranges] }
    (positions, d.pushFront spans)

/-- The first declaration makes the streams. -/
def fixData (d : Dispenser) (data : DataDecl) : Dispenser :=
  { d with
    streams := data.streams.map fun _ => StreamState.default
    events := d.events ++ [.streams data.streams data.fingerprint]
    data := some data }

/-- The run's data against the island's: the first island fixes it. -/
def agreeData (d : Dispenser) (holder : Holder) (data : DataDecl) :
    Except DispenseError Dispenser :=
  match d.data with
  | some run =>
    if run ≠ data then .error (.mismatch (mismatchText holder data run))
    else .ok d
  | none => .ok (d.fixData data)

/-- The loop over an island's older incarnations: the last one, the
positions reclaimed, the state. -/
def supersede : List Holder → Option U64 → Nat → Dispenser → Option U64 × Nat × Dispenser
  | [], previous, reclaimed, d => (previous, reclaimed, d)
  | old :: older, _, reclaimed, d =>
    let r := d.reclaim old .superseded
    supersede older (some old.incarnation) (wadd reclaimed r.1) r.2

def olderOf (d : Dispenser) (holder : Holder) : List Holder := d.live.keys.filter fun h =>
    decide (h.learnerId = holder.learnerId) && !decide (h = holder)

/-- The last part of `open_with`: a reconnect, or a join. -/
def enroll (d : Dispenser) (holder : Holder) (data : DataDecl) (list : List Nat) (now : Nat) :
    Except DispenseError OpenOutcome × Dispenser :=
  let logged := if list.length < d.streams.length then some list else none
  if d.live.contains holder then
    (.ok .reconnected, { d with
        members := (d.members.touch holder now).2
        live := d.live.update holder fun l => { l with accept := list }
        events := d.events ++ [.opened holder none true data.totalRows logged] })
  else if d.live.size ≥ liveLimit then
    (.error (.refused s!"more than {liveLimit} live islands"), d)
  else
    let joined := { d with members := (d.members.join holder now).2 }
    let r := supersede (d.olderOf holder) none 0 joined
    let after := r.2.2
    (.ok (.joined r.1 r.2.1), { after with
        live := after.live.insert holder
          { blocks := .empty, waiting := false, last := none, accept := list }
        events := after.events ++ [.opened holder r.1 false data.totalRows logged] })

/-- Admit an island process. `data` describes its data; `accept` the
streams it takes positions of (`none`: every stream). -/
def openWith (d : Dispenser) (holder : Holder) (data : DataDecl)
    (accept : Option (List Nat)) (now : Nat) : Except DispenseError OpenOutcome × Dispenser :=
  if d.members.isRetired holder then
    (.error (.fenced (d.members.fencedText holder)), d.log [.fenced holder .openHello])
  else if data.totalRows = 0 then
    (.error (.refused "the island declares 0 rows"), d)
  else
    match data.validate with
    | .error m => (.error (.refused s!"the island declares {m}"), d)
    | .ok () =>
      match d.agreeData holder data with
      | .error e => (.error e, d)
      | .ok d =>
        -- the data is fixed from here on, also when the list is refused
        match acceptList d.streams.length accept with
        | .error e => (.error e, d)
        | .ok list => d.enroll holder data list now

/-- Renew the lease of a live holder. -/
def requireLive (d : Dispenser) (holder : Holder) (request : Request)
    (now : Nat) : Except DispenseError Unit × Dispenser :=
  if d.live.contains holder && (d.members.touch holder now).1 then
    (.ok (), { d with members := (d.members.touch holder now).2 })
  else if d.members.isRetired holder then
    (.error (.fenced (d.members.fencedText holder)), d.log [.fenced holder request])
  else
    (.error (.fenced (noLeaseText holder)), d.log [.fenced holder request])

def heartbeat (d : Dispenser) (holder : Holder) (now : Nat) :
    Except DispenseError Unit × Dispenser := d.requireLive holder .heartbeat now

/-- A resent request gets the stored answer; an older one is refused. -/
def replay (d : Dispenser) (holder : Holder) (seq : Nat) : Except DispenseError (Option Answer) :=
  match (d.live.find holder).bind (·.last) with
  | some (last, answer) =>
    if last = seq then .ok (some answer)
    else if last > seq then .error (.refused
      s!"request {seq} is older than the latest request {last}")
    else .ok none
  | none => .ok none

def remember (d : Dispenser) (holder : Holder) (seq : Nat) (answer : Answer) : Dispenser :=
  { d with live := d.live.update holder fun l =>
      { l with last := some (seq, answer) } }

end Dispenser

/-- The inner loop of `claim_new`: the spans taken from one queue, the
queue left, the need left. A front longer than the need is split. -/
def drainQueue : Nat → List Span → List Span × List Span × Nat
  | need, [] => ([], [], need)
  | need, front :: queue =>
    if need = 0 then ([], front :: queue, need)
    else if front.len ≤ need then
      let r := drainQueue (need - front.len) queue
      (front :: r.1, r.2.1, r.2.2)
    else
      ([⟨front.start, wadd front.start need, front.redo⟩],
        { front with start := wadd front.start need } :: queue, 0)

/-- The outer loop: the accepted streams' queues, until the need is met. -/
def drainStreams : List Nat → Nat → List StreamState → List Span × List StreamState × Nat
  | [], need, streams => ([], streams, need)
  | s :: accept, need, streams =>
    let r := drainQueue need (streams.getD s .default).queue
    let streams := streams.modify s fun st => { st with queue := r.2.1 }
    if r.2.2 = 0 then (r.1, streams, 0)
    else
      let q := drainStreams accept r.2.2 streams
      (r.1 ++ q.1, q.2.1, q.2.2)

/-- The interleave rule of `pick_fresh`. -/
structure Interleave where
  weights : List Int
  total : Int
  /-- `2 * (k - 1)` for `k` streams. -/
  m : Int
  limits : List Nat

/-- The two candidates of one scan: the eligible stream with the earliest
deadline (with its deadline numerator), the stream furthest behind (with
its deficit). -/
structure Scan where
  due : Option (Nat × Int)
  behind : Option (Nat × Int)

/-- Whether deadline `a / w` beats the due stream's (`due.map_or`). -/
def Interleave.earlier (iv : Interleave) (due : Option (Nat × Int)) (a w : Int) : Bool :=
  match due with
  | none => true
  | some (b, bn) => decide (a * iv.weights.getD b 0 < bn * w)

def further (behind : Option (Nat × Int)) (deficit : Int) : Bool :=
  match behind with
  | none => true
  | some (_, d) => decide (deficit > d)

def Interleave.scanStream (iv : Interleave) (counts : List Nat) (n : Int)
    (acc : Scan) (s : Nat) : Scan :=
  if counts.getD s 0 ≥ iv.limits.getD s 0 then acc
  else
    let w := iv.weights.getD s 0
    let c : Int := counts.getD s 0
    let deficit := w * n - c * iv.total
    let a := iv.m * (c + 1) - 1
    { due := if iv.m * deficit ≥ iv.total ∧ iv.earlier acc.due a w = true
        then some (s, a) else acc.due
      behind := if further acc.behind deficit = true then some (s, deficit)
        else acc.behind }

def Interleave.scan (iv : Interleave) (opened : List Nat) (counts : List Nat)
    (given : Int) : Scan := opened.foldl (iv.scanStream counts (given + 1)) ⟨none, none⟩

def Scan.choice (sc : Scan) : Option Nat := (sc.due.or sc.behind).map Prod.fst

/-- The loop of `pick_fresh`: `need` rounds over the counts, collecting
how often each stream was taken. -/
def Interleave.pickLoop (iv : Interleave) (opened : List Nat) :
    Nat → List Nat → Int → List Nat → List Nat
  | 0, _, _, taken => taken
  | need + 1, counts, given, taken =>
    match (iv.scan opened counts given).choice with
    | none => taken
    | some s =>
      iv.pickLoop opened need (counts.modify s (· + 1)) (given + 1) (taken.modify s (· + 1))

def startPasses (s : Nat) : List Nat → Nat → Nat × List DispenseEvent
  | [], started => (started, [])
  | pass :: rest, started =>
    if pass ≥ started then
      let r := startPasses s rest (pass + 1)
      (r.1, .passStart s pass :: r.2)
    else startPasses s rest started

def openSpans (spans : List Span) : SortedMap Nat (Nat × Nat) :=
  spans.foldl (fun m s => m.insert s.start (s.stop, s.redo)) .empty

namespace Dispenser

def interleave (d : Dispenser) : Interleave where
  weights := d.decls.map fun s => (s.weight : Int)
  total := (d.decls.map fun s => (s.weight : Int)).sum
  m := 2 * ((d.streams.length : Int) - 1)
  limits := (List.range d.streams.length).map d.limit

/-- How many fresh positions of each accepted stream the next `need` fresh
positions take. -/
def pickFresh (d : Dispenser) (accept : List Nat) (need : Nat) : List (Nat × Nat) :=
  let opened := accept.filter fun s => !d.exhausted s
  if opened.isEmpty ∨ need = 0 then []
  else if d.streams.length = 1 then
    let s := opened.headD 0
    [(s, min need (d.limit s - (d.stream s).next))]
  else
    let counts : List Nat := d.streams.map (·.next)
    let given : Int := (counts.map fun c : Nat => (c : Int)).sum
    let taken := d.interleave.pickLoop opened need counts given (List.replicate d.streams.length 0)
    (taken.zipIdx.filter fun e => decide (e.1 > 0)).map fun e => (e.2, e.1)

/-- The next `n` positions of a stream. -/
def giveOne (d : Dispenser) (s n : Nat) : Span × Dispenser :=
  let rows := d.streamRows s
  let start := (d.stream s).next
  let stop := start + n
  let passes := List.range' (start / rows) ((stop - 1) / rows + 1 - start / rows)
  let r := startPasses s passes (d.stream s).passesStarted
  (⟨positionOf s start, positionOf s stop, 0⟩, { d with
      streams := d.streams.modify s fun st =>
        { st with next := stop, passesStarted := r.1 }
      events := d.events ++ r.2 })

def giveFresh : List (Nat × Nat) → Dispenser → List Span × Dispenser
  | [], d => ([], d)
  | (s, n) :: picks, d =>
    let r := d.giveOne s n
    let q := giveFresh picks r.2
    (r.1 :: q.1, q.2)

/-- Whether a live holder holds an unreported position of one of
`streams`. -/
def holdsAny (d : Dispenser) (streams : List Nat) : Bool := d.blocks.values.any fun b =>
    b.unreported.keys.any fun start => streams.contains (streamOf start)

def passOf (d : Dispenser) (p : Nat) : Nat := localOf p / d.streamRows (streamOf p)

def grant (d : Dispenser) (holder : Holder) (spans : List Span) : Claim × Dispenser :=
  let id := d.nextBlock
  let ranges := spans.map Span.range
  let firstPass := (ranges.map fun r => d.passOf r.1).min?.getD 0
  let lastPass := (ranges.map fun r => d.passOf (wsub r.2 1)).max?.getD 0
  (.grant id ranges, { d with
      nextBlock := id + 1
      live := d.live.update holder fun l =>
        { l with waiting := false, blocks := l.blocks.insert id () }
      totals := { d.totals with
        granted := wadd d.totals.granted (count ranges) }
      blocks := d.blocks.insert id ⟨holder, openSpans spans⟩
      events := d.events ++ [.grant holder id ranges firstPass lastPass] })

/-- Nothing to give: END or WAIT (one log line per wait period). -/
def answerEmpty (d : Dispenser) (holder : Holder) (accept : List Nat) : Claim × Dispenser :=
  if accept.all d.exhausted && !d.holdsAny accept then
    (.ended, d.log [.ended holder])
  else if (d.live.find holder).any (!·.waiting) then
    (.wait, { d with
        live := d.live.update holder fun l => { l with waiting := true }
        events := d.events ++ [.wait holder] })
  else (.wait, d)

/-- The spans of a claim: the queued ones, then fresh ones. -/
def collect (d : Dispenser) (accept : List Nat) (wanted : Nat) : List Span × Dispenser :=
  let r := drainStreams accept wanted d.streams
  let d : Dispenser := { d with streams := r.2.1 }
  let q := giveFresh (d.pickFresh accept r.2.2) d
  (r.1 ++ q.1, q.2)

def acceptOf (d : Dispenser) (holder : Holder) : List Nat :=
  ((d.live.find holder).map (·.accept)).getD []

def claimNew (d : Dispenser) (holder : Holder) (wanted : Nat) :
    Except DispenseError Claim × Dispenser :=
  let maxBlock := d.cfg.maxBlock.val
  if wanted = 0 ∨ wanted > maxBlock then
    (.error (.refused (sizeText wanted maxBlock)), d)
  else
    let accept := d.acceptOf holder
    let r := d.collect accept wanted
    let a := if r.1.isEmpty then r.2.answerEmpty holder accept
      else r.2.grant holder r.1
    (.ok a.1, a.2)

def claim (d : Dispenser) (holder : Holder) (seq wanted now : Nat) :
    Except DispenseError Claim × Dispenser :=
  match d.requireLive holder .claim now with
  | (.error e, d) => (.error e, d)
  | (.ok (), d) =>
    match d.replay holder seq with
    | .error e => (.error e, d)
    | .ok (some (.claim c)) => (.ok c, d)
    | .ok (some (.report _)) =>
      (.error (.refused s!"request {seq} was a report, not a claim"), d)
    | .ok none =>
      match d.claimNew holder wanted with
      | (.error e, d) => (.error e, d)
      | (.ok c, d) => (.ok c, d.remember holder seq (.claim c))

end Dispenser

/-- The loop of `take_range`: the open spans that follow `cursor` without
a gap, up to `stop`. -/
def walkSpans (unreported : SortedMap Nat (Nat × Nat)) (stop : Nat) :
    Nat → Nat → Except String (List Span)
  | fuel, cursor =>
    if cursor < stop then
      match unreported.find cursor with
      | some (e, r) =>
        match fuel with
        | 0 => .error "the spans of the block do not end"
        | fuel + 1 =>
          match walkSpans unreported stop fuel e with
          | .ok pieces => .ok (⟨cursor, e, r⟩ :: pieces)
          | .error m => .error m
      | none => .error
          s!"position {cursor} is not an unreported position of the block"
    else .ok []

def cutPiece (start stop : Nat) (unreported : SortedMap Nat (Nat × Nat))
    (p : Span) : SortedMap Nat (Nat × Nat) :=
  let m := unreported.erase p.start
  let m := if p.start < start then m.insert p.start (start, p.redo) else m
  if p.stop > stop then m.insert stop (p.stop, p.redo) else m

def clampPiece (start stop : Nat) (p : Span) : Span := ⟨max p.start start, min p.stop stop, p.redo⟩

/-- Remove `[start, stop)`; it must be covered without gaps. -/
def takeRange (unreported : SortedMap Nat (Nat × Nat)) (start stop : Nat) :
    Except String (List Span × SortedMap Nat (Nat × Nat)) :=
  if start ≥ stop then .error s!"empty range [{start}, {stop})"
  else
    match unreported.findLe start with
    | some (s, e, r) =>
      if e > start then
        match walkSpans unreported stop (stop - e) e with
        | .error m => .error m
        | .ok rest =>
          let pieces : List Span := ⟨s, e, r⟩ :: rest
          .ok (pieces.map (clampPiece start stop), pieces.foldl (cutPiece start stop) unreported)
      else .error
        s!"position {start} is not an unreported position of the block"
    | none => .error
        s!"position {start} is not an unreported position of the block"

def takeRanges : List (Nat × Nat) → SortedMap Nat (Nat × Nat) →
    Except String (List Span × SortedMap Nat (Nat × Nat))
  | [], unreported => .ok ([], unreported)
  | (start, stop) :: ranges, unreported =>
    match takeRange unreported start stop with
    | .error m => .error m
    | .ok (taken, unreported) =>
      match takeRanges ranges unreported with
      | .error m => .error m
      | .ok (more, unreported) => .ok (taken ++ more, unreported)

namespace Dispenser

/-- The staged copy of an entry's block: the one staged before, else the
holder's own block. -/
def stagedBlock (d : Dispenser) (holder : Holder)
    (staged : SortedMap Nat Block) (id : Nat) : Except DispenseError Block :=
  match staged.find id with
  | some b => .ok b
  | none =>
    match (d.blocks.find id).filter fun b => decide (b.holder = holder) with
    | some b => .ok b
    | none => .error (.refused (notHeldText id holder))

def stageEntry (d : Dispenser) (holder : Holder)
    (staged : SortedMap Nat Block) (entry : ReportEntry) :
    Except DispenseError (List Span × SortedMap Nat Block) :=
  match d.stagedBlock holder staged entry.block with
  | .error e => .error e
  | .ok b =>
    match takeRanges entry.ranges b.unreported with
    | .error m =>
      let id := entry.block
      .error (.refused s!"block {id}: {m}")
    | .ok (spans, unreported) => .ok (spans, staged.insert entry.block { b with unreported })

def stageEntries (d : Dispenser) (holder : Holder) : List ReportEntry → SortedMap Nat Block →
    Except DispenseError (List (ReportEntry × List Span) × SortedMap Nat Block)
  | [], staged => .ok ([], staged)
  | entry :: entries, staged =>
    match d.stageEntry holder staged entry with
    | .error e => .error e
    | .ok (spans, staged) =>
      match d.stageEntries holder entries staged with
      | .error e => .error e
      | .ok (removed, staged) => .ok ((entry, spans) :: removed, staged)

end Dispenser

/-- What the commit of a report adds up. -/
structure Tally where
  totals : Totals
  answer : ReportTotals
  front : List Span
  events : List DispenseEvent

def requeueSpan (maxRedo : Nat) (acc : Tally × List (Nat × Nat))
    (span : Span) : Tally × List (Nat × Nat) :=
  let t := acc.1
  if span.redo < maxRedo then
    ({ t with
        answer := { t.answer with
          requeued := wadd t.answer.requeued span.len }
        totals := { t.totals with
          requeued := wadd t.totals.requeued span.len }
        front := t.front ++ [{ span with redo := span.redo + 1 }] }, acc.2)
  else
    ({ t with
        answer := { t.answer with
          exhausted := wadd t.answer.exhausted span.len }
        totals := { t.totals with
          exhausted := wadd t.totals.exhausted span.len } }, acc.2 ++ [span.range])

def commitEntry (maxRedo : Nat) (holder : Holder) (t : Tally)
    (removed : ReportEntry × List Span) : Tally :=
  let entry := removed.1
  let spans := removed.2
  let positions := lenSum spans
  let t := { t with answer := { t.answer with
    settled := wadd t.answer.settled positions } }
  let r : Tally × List (Nat × Nat) := match entry.kind with
    | .trained => ({ t with totals := { t.totals with
        trained := wadd t.totals.trained positions } }, [])
    | .dropped => ({ t with totals := { t.totals with
        dropped := wadd t.totals.dropped positions } }, [])
    | .release =>
      ({ t with
          totals := { t.totals with
            released := wadd t.totals.released positions }
          front := t.front ++ spans }, [])
    | .requeue => spans.foldl (requeueSpan maxRedo) (t, [])
  { r.1 with events := r.1.events ++ [.report holder entry.block entry.kind entry.ranges r.2] }

namespace Dispenser

/-- Put one staged block back: a block without unreported positions is
retired. -/
def finishBlock (holder : Holder) (d : Dispenser) (staged : Nat × Block) : Dispenser :=
  if staged.2.unreported.entries.isEmpty then
    { d with
      blocks := d.blocks.erase staged.1
      live := d.live.update holder fun l =>
        { l with blocks := l.blocks.erase staged.1 }
      events := d.events ++ [.blockDone holder staged.1] }
  else { d with blocks := d.blocks.insert staged.1 staged.2 }

def reportNew (d : Dispenser) (holder : Holder) (entries : List ReportEntry) :
    Except DispenseError ReportTotals × Dispenser :=
  match d.stageEntries holder entries .empty with
  | .error e => (.error e, d)
  | .ok (removed, staged) =>
    let t := removed.foldl (commitEntry d.cfg.maxRedo.val holder) ⟨d.totals, .zero, [], d.events⟩
    let d := { d with totals := t.totals, events := t.events }
    let d := staged.entries.foldl (finishBlock holder) d
    (.ok t.answer, d.pushFront t.front)

def report (d : Dispenser) (holder : Holder) (seq : Nat) (entries : List ReportEntry) (now : Nat) :
    Except DispenseError ReportTotals × Dispenser :=
  match d.requireLive holder .report now with
  | (.error e, d) => (.error e, d)
  | (.ok (), d) =>
    match d.replay holder seq with
    | .error e => (.error e, d)
    | .ok (some (.report t)) => (.ok t, d)
    | .ok (some (.claim _)) =>
      (.error (.refused s!"request {seq} was a claim, not a report"), d)
    | .ok none =>
      match d.reportNew holder entries with
      | (.error e, d) => (.error e, d)
      | (.ok t, d) => (.ok t, d.remember holder seq (.report t))

/-- The loop of `expire` over the retired holders: those whose lease
expired, and the state. -/
def reclaimRetired : List (Holder × Option Retired) → Dispenser → List Holder × Dispenser
  | [], d => ([], d)
  | (holder, reason) :: rest, d =>
    if reason = some .superseded then
      reclaimRetired rest (d.reclaim holder .superseded).2
    else
      let r := reclaimRetired rest (d.reclaim holder .expired).2
      (holder :: r.1, r.2)

/-- Expire every member silent for the lease, then reclaim the rows of
every holder the shared table retired. -/
def expire (d : Dispenser) (now : Nat) : List Holder × Dispenser :=
  let members := (d.members.expire now).2
  let retired := d.live.keys.filter members.isRetired
  reclaimRetired (retired.map fun h => (h, members.retiredReason h)) { d with members := members }

end Dispenser

end Yeto.Dispense
