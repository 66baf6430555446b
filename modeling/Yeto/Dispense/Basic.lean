/-
The task dispenser's data (`syncer/src/dispense.rs`).

The release profile of the syncer wraps on overflow, and the model wraps
where a run can get there: the length of a span (`wsub`), the cumulative
totals (`wadd`) and the row total of a declaration that was not validated
yet. The block counter is a `u64` kept as a plain `Nat`.

Position `(s << 40) | k` is the `k`-th position of stream `s`. `positionOf`
is an OR, as in the source: it is the sum below the stream's capacity
(`positionOf_eq`), and not one step past the last position of an ODD stream.
-/
import Yeto.Members
import Mathlib.Data.List.Sort
import Mathlib.Data.Nat.Bitwise
import Yeto.Lib.Guards

namespace Yeto.Dispense

open Lib

def wadd (a b : Nat) : Nat := (a + b) % 2 ^ 64

def wsub (a b : Nat) : Nat := (a + (2 ^ 64 - b)) % 2 ^ 64

def satMul (a b : Nat) : Nat := min (a * b) (2 ^ 64 - 1)

theorem wsub_of_le {a b : Nat} (h : b ≤ a) (ha : a < 2 ^ 64) : wsub a b = a - b := by
  unfold wsub
  have h1 : a + (2 ^ 64 - b) = a - b + 2 ^ 64 := by omega
  rw [h1, Nat.add_mod_right, Nat.mod_eq_of_lt (by omega)]

def streamShift : Nat := 40

def streamPositions : Nat := 1 <<< streamShift

def maxStreams : Nat := 256

def maxStreamName : Nat := 64

/-- Largest stream weight (keeps the interleave arithmetic in an `i128`). -/
def maxStreamWeight : Nat := 1 <<< 62

def liveLimit : Nat := 4096

def streamOf (position : Nat) : Nat := position >>> streamShift

def localOf (position : Nat) : Nat := position &&& (streamPositions - 1)

def positionOf (stream loc : Nat) : Nat := (stream <<< streamShift) ||| loc

theorem streamPositions_eq : streamPositions = 2 ^ 40 := by decide

theorem streamOf_eq (p : Nat) : streamOf p = p / 2 ^ 40 := Nat.shiftRight_eq_div_pow p 40

theorem localOf_eq (p : Nat) : localOf p = p % 2 ^ 40 := by
  unfold localOf
  rw [streamPositions_eq]
  exact Nat.and_two_pow_sub_one_eq_mod p 40

theorem positionOf_eq {s k : Nat} (h : k < 2 ^ 40) : positionOf s k = s * 2 ^ 40 + k := by
  unfold positionOf streamShift
  rw [Nat.shiftLeft_eq, Nat.mul_comm, ← Nat.two_pow_add_eq_or_of_lt h]

theorem positionOf_capacity_even {s : Nat} (h : s % 2 = 0) :
    positionOf s (2 ^ 40) = s * 2 ^ 40 + 2 ^ 40 := by
  obtain ⟨t, rfl⟩ : ∃ t, s = 2 * t := ⟨s / 2, by omega⟩
  unfold positionOf streamShift
  rw [Nat.shiftLeft_eq, show 2 * t * 2 ^ 40 = 2 ^ 41 * t by omega,
    ← Nat.two_pow_add_eq_or_of_lt (by decide : 2 ^ 40 < 2 ^ 41)]

structure DispenseConfig where
  /-- A holder silent for this long expires. -/
  lease : Nat
  /-- Passes over the rows; `none`: unlimited. -/
  passes : Option U64
  maxRedo : U32
  maxBlock : U32

structure StreamDecl where
  rows : Nat
  weight : Nat
  name : String
deriving DecidableEq

abbrev Fingerprint := { bytes : List UInt8 // bytes.length = 32 }

structure DataDecl where
  streams : List StreamDecl
  fingerprint : Fingerprint
deriving DecidableEq

/-- `char::is_control`: the Unicode category Cc. -/
def isControl (c : Char) : Bool := c.toNat ≤ 0x1f || (0x7f ≤ c.toNat && c.toNat ≤ 0x9f)

def DataDecl.single (rows : Nat) (fingerprint : Fingerprint) : DataDecl where
  streams := [⟨rows, 1, ""⟩]
  fingerprint := fingerprint

def DataDecl.totalRows (d : DataDecl) : Nat := (d.streams.map (·.rows)).foldl wadd 0

def StreamDecl.check (i : Nat) (s : StreamDecl) : Except String Unit :=
  let rows := s.rows
  let weight := s.weight
  let bytes := s.name.utf8ByteSize
  if rows = 0 ∨ rows ≥ streamPositions then
    .error s!"stream {i} declares {rows} rows"
  else if weight = 0 ∨ weight > maxStreamWeight then
    .error s!"stream {i} has weight {weight} (1..=2^62 allowed)"
  else if bytes > maxStreamName ∨ s.name.toList.any isControl then
    .error s!"stream {i} has a bad name ({bytes} bytes)"
  else .ok ()

def checkStreams (i : Nat) : List StreamDecl → Except String Unit
  | [] => .ok ()
  | s :: rest =>
    match s.check i with
    | .ok () => checkStreams (i + 1) rest
    | .error m => .error m

def DataDecl.validate (d : DataDecl) : Except String Unit :=
  let n := d.streams.length
  if n = 0 ∨ n > maxStreams then
    .error s!"{n} streams (1..={maxStreams} allowed)"
  else checkStreams 0 d.streams

structure StreamDecl.Valid (s : StreamDecl) : Prop where
  rows_pos : 0 < s.rows
  rows_lt : s.rows < 2 ^ 40
  weight_pos : 0 < s.weight
  weight_le : s.weight ≤ 2 ^ 62
  name_bytes : s.name.utf8ByteSize ≤ 64
  name_chars : s.name.toList.any isControl = false

theorem StreamDecl.check_ok_iff {i : Nat} {s : StreamDecl} : s.check i = .ok () ↔ s.Valid := by
  have hw : maxStreamWeight = 2 ^ 62 := by decide
  dsimp only [StreamDecl.check]
  rw [streamPositions_eq, hw]
  constructor
  · intro h
    obtain ⟨hr, h⟩ := of_then_error h
    obtain ⟨hwt, h⟩ := of_then_error h
    obtain ⟨hn, h⟩ := of_then_error h
    unfold maxStreamName at hn
    simp only [not_or, Bool.not_eq_true] at hr hwt hn
    exact ⟨by omega, by omega, by omega, by omega, by omega, hn.2⟩
  · rintro ⟨h1, h2, h3, h4, h5, h6⟩
    rw [if_neg (by omega), if_neg (by omega), if_neg]
    unfold maxStreamName
    rw [h6]
    simp only [Bool.false_eq_true, or_false]
    omega

structure DataDecl.Valid (d : DataDecl) : Prop where
  count_pos : 0 < d.streams.length
  count_le : d.streams.length ≤ 256
  streams : ∀ s ∈ d.streams, s.Valid

theorem checkStreams_ok_iff {l : List StreamDecl} : ∀ i : Nat,
    checkStreams i l = .ok () ↔ ∀ s ∈ l, s.Valid := by
  induction l with
  | nil => intro i; simp [checkStreams]
  | cons s l ih =>
    intro i
    rw [checkStreams, List.forall_mem_cons, ← ih (i + 1), ← StreamDecl.check_ok_iff]
    cases hc : s.check i with
    | ok u => simp
    | error m => simp

theorem DataDecl.validate_ok_iff (d : DataDecl) : d.validate = .ok () ↔ d.Valid := by
  unfold DataDecl.validate maxStreams
  dsimp only
  constructor <;> intro h
  · obtain ⟨hn, h⟩ := of_then_error h
    exact ⟨by omega, by omega, (checkStreams_ok_iff _).1 h⟩
  · have h1 := h.count_pos
    have h2 := h.count_le
    rw [if_neg (by omega)]
    exact (checkStreams_ok_iff _).2 h.streams

/-- Positions `[start, stop)`, each requeued `redo` times so far. -/
structure Span where
  start : Nat
  stop : Nat
  redo : Nat
deriving DecidableEq, Repr

def Span.len (s : Span) : Nat := wsub s.stop s.start

inductive ReportKind
  | trained
  | dropped
  /-- A stale group: give the position out again. -/
  | requeue
  /-- Never consumed: give it out again (does not count as a redo). -/
  | release
deriving DecidableEq, Repr

/-- One entry of a report: `kind` for the `ranges` of `block`. -/
structure ReportEntry where
  block : Nat
  kind : ReportKind
  ranges : List (Nat × Nat)
deriving DecidableEq, Repr

inductive Claim
  | grant (block : Nat) (ranges : List (Nat × Nat))
  | wait
  | ended
deriving DecidableEq, Repr

structure ReportTotals where
  settled : Nat
  requeued : Nat
  exhausted : Nat
deriving DecidableEq, Repr

def ReportTotals.zero : ReportTotals := ⟨0, 0, 0⟩

inductive OpenOutcome
  | joined (superseded : Option U64) (reclaimed : Nat)
  | reconnected
deriving DecidableEq, Repr

inductive DispenseError
  | fenced (message : String)
  | mismatch (message : String)
  | refused (message : String)
deriving DecidableEq, Repr

inductive ReclaimReason
  | expired
  | superseded
deriving DecidableEq, Repr

inductive Request
  | openHello
  | claim
  | report
  | heartbeat
deriving DecidableEq, Repr

inductive DispenseEvent
  | opened (holder : Holder) (superseded : Option U64) (reconnect : Bool)
      (rows : Nat) (accept : Option (List Nat))
  | streams (streams : List StreamDecl) (fingerprint : Fingerprint)
  | grant (holder : Holder) (block : Nat) (ranges : List (Nat × Nat)) (firstPass lastPass : Nat)
  | passStart (stream pass : Nat)
  | wait (holder : Holder)
  | ended (holder : Holder)
  | report (holder : Holder) (block : Nat) (kind : ReportKind) (ranges exhausted : List (Nat × Nat))
  | blockDone (holder : Holder) (block : Nat)
  | reclaim (holder : Holder) (reason : ReclaimReason) (ranges : List (Nat × Nat))
  | fenced (holder : Holder) (request : Request)
  | restore (next queued retired : Nat)
  | checkpoint (next queued outstanding : Nat)

/-- One block in flight: its unreported positions, `start ↦ (stop, redo)`. -/
structure Block where
  holder : Holder
  unreported : SortedMap Nat (Nat × Nat)

def Block.spans (b : Block) : List Span := b.unreported.entries.map fun e => ⟨e.1, e.2.1, e.2.2⟩

inductive Answer
  | claim (c : Claim)
  | report (t : ReportTotals)
deriving DecidableEq, Repr

structure Live where
  blocks : SortedMap Nat Unit
  waiting : Bool
  /-- Sequence number and answer of the latest CLAIM / REPORT. -/
  last : Option (Nat × Answer)
  /-- The streams this holder takes positions of, ascending. -/
  accept : List Nat

structure Totals where
  granted : Nat
  trained : Nat
  dropped : Nat
  requeued : Nat
  exhausted : Nat
  released : Nat
  reclaimed : Nat
deriving DecidableEq, Repr

def Totals.zero : Totals := ⟨0, 0, 0, 0, 0, 0, 0⟩

structure StreamState where
  /-- Next never-given local position. -/
  next : Nat
  /-- Positions to give out before fresh ones, front first. -/
  queue : List Span
  passesStarted : Nat
deriving DecidableEq, Repr

def StreamState.default : StreamState := ⟨0, [], 0⟩

structure Dispenser where
  cfg : DispenseConfig
  /-- Streams and fingerprint, fixed by the first island or a restore. -/
  data : Option DataDecl
  /-- One per declared stream (empty until the data is fixed). -/
  streams : List StreamState
  blocks : SortedMap Nat Block
  nextBlock : Nat
  live : SortedMap Holder Live
  members : Members
  totals : Totals
  events : List DispenseEvent

namespace Dispenser

def withMembers (cfg : DispenseConfig) (members : Members) : Dispenser where
  cfg := cfg
  data := none
  streams := []
  blocks := .empty
  nextBlock := 1
  live := .empty
  members := members
  totals := .zero
  events := []

def stream (d : Dispenser) (s : Nat) : StreamState := d.streams.getD s .default

def decls (d : Dispenser) : List StreamDecl := (d.data.map (·.streams)).getD []

def streamRows (d : Dispenser) (s : Nat) : Nat :=
  (d.decls.getD s ⟨0, 0, ""⟩).rows

def nextPosition (d : Dispenser) : Nat := (d.streams.map (·.next)).sum

def queued (d : Dispenser) : Nat := ((d.streams.flatMap (·.queue)).map Span.len).foldl wadd 0

def outstanding (d : Dispenser) : Nat :=
  ((d.blocks.values.flatMap Block.spans).map Span.len).foldl wadd 0

/-- Exclusive end of the fresh local positions of stream `s`. -/
def limit (d : Dispenser) (s : Nat) : Nat :=
  match d.cfg.passes with
  | some p => min (satMul (d.streamRows s) p.val) streamPositions
  | none => streamPositions

def exhausted (d : Dispenser) (s : Nat) : Bool := decide ((d.stream s).next ≥ d.limit s)

def takeEvents (d : Dispenser) : List DispenseEvent × Dispenser :=
  (d.events, { d with events := [] })

def log (d : Dispenser) (es : List DispenseEvent) : Dispenser := { d with events := d.events ++ es }

end Dispenser

end Yeto.Dispense
