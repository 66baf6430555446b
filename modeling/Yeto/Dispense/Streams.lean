/-
The rows behind the positions: the stream table an island builds from its
prompt file, and the map from positions to rows.

`StreamTable.build` makes one stream of each `(source, label)`. Position
`(s << 40) | k` is row `order[k % n]` of the `n` rows of stream `s`, in the
order of pass `k / n`. `PositionMap` keeps the orders it has computed; that
they are RIGHT is a field (`cached`).

A `Shuffle` is any function of the seed text that permutes its list. Sources
are numbered from 0; the weights of a mix are fractions.
-/
import Mathlib.Algebra.Order.Ring.Rat
import Mathlib.Data.String.Basic
import Yeto.Dispense.Basic

namespace Yeto.Dispense

open Lib Option

/-- `(source, label)` of a row, in the order of the pairs. -/
abbrev RowKey := Nat ×ₗ String

structure Stream where
  source : Nat
  label : String
  rows : List Nat
  weight : Nat
  name : String
deriving DecidableEq

structure StreamTable where
  streams : List Stream
  fingerprint : Fingerprint
  nonempty : 0 < streams.length
  count_le : streams.length ≤ maxStreams

def StreamTable.new (streams : List Stream) (fingerprint : Fingerprint) :
    Except String StreamTable :=
  if h : 0 < streams.length ∧ streams.length ≤ maxStreams then
    .ok ⟨streams, fingerprint, h.1, h.2⟩
  else
    let n := streams.length
    .error s!"{n} streams (1..{maxStreams} allowed)"

def joinGroup (groups : SortedMap RowKey (List Nat)) (e : RowKey × Nat) :
    SortedMap RowKey (List Nat) := groups.insert e.1 ((groups.find e.1).getD [] ++ [e.2])

def groupRows (keys : List RowKey) : SortedMap RowKey (List Nat) :=
  keys.zipIdx.foldl joinGroup .empty

def mixWeightScale : Nat := 2 ^ 50

/-- Python's `round` of a fraction: to the nearest integer, ties to even. -/
def roundHalfEven (q : ℚ) : Int :=
  let floor := q.num / q.den
  let remainder := q.num % q.den
  if remainder * 2 < q.den then floor
  else if q.den < remainder * 2 then floor + 1
  else if floor % 2 = 0 then floor
  else floor + 1

/-- A source's weight is split over its labels by row count. -/
def mixWeights (groups : SortedMap RowKey (List Nat)) (mix : List ℚ) : List Nat :=
  let perSource := fun source : Nat =>
    ((groups.entries.filter fun e => e.1.1 = source).map fun e => e.2.length).sum
  let shares := groups.entries.map fun e =>
    mix.getD e.1.1 0 * (e.2.length : ℚ) / (perSource e.1.1 : ℚ)
  let total := shares.sum
  shares.map fun share =>
    (max 1 (roundHalfEven (share / total * (mixWeightScale : ℚ)))).toNat

def streamWeights (groups : SortedMap RowKey (List Nat)) :
    Option (List ℚ) → Except String (List Nat)
  | none =>
    let sources := (groups.keys.map fun key => key.1).eraseDups
    if sources ≠ [0] then
      .error s!"rows of sources {sources} without --data-mix weights"
    else if groups.keys = [toLex (0, "")] then .ok [1]
    else .ok (groups.values.map List.length)
  | some mix =>
    -- ascending, as the keys are
    let sources := (groups.keys.map fun key => key.1).eraseDups
    let missing := (List.range mix.length).filter (· ∉ sources)
    let n := mix.length
    if mix.any (· ≤ 0) then .error "--data-mix weights must be positive"
    else if missing ≠ [] ∨ sources.getLastD 0 ≥ n then
      .error (s!"--data-mix has {n} sources; the rows have sources "
        ++ s!"{sources} (a source without rows: {missing})")
    else .ok (mixWeights groups mix)

def streamName (mixed : Bool) (source : Nat) (label : String) : String :=
  if !mixed then label
  else s!"s{source}" ++ if label = "" then "" else s!"/{label}"

def StreamTable.build (keys : List RowKey) (fingerprint : Fingerprint)
    (mix : Option (List ℚ)) : Except String StreamTable :=
  let groups := groupRows keys
  if groups.entries = [] then .error "the data has no rows"
  else
    match streamWeights groups mix with
    | .error m => .error m
    | .ok weights =>
      StreamTable.new (groups.entries.zipWith (fun e weight =>
            ⟨e.1.1, e.1.2, e.2, weight, streamName mix.isSome e.1.1 e.1.2⟩) weights) fingerprint

def StreamTable.decl (t : StreamTable) : DataDecl where
  streams := t.streams.map fun s => ⟨s.rows.length, s.weight, s.name⟩
  fingerprint := t.fingerprint

/-- The island label that matches the rows without a task label. -/
def unlabeled : String := "-"

def labelList (labels : List String) : String :=
  "[" ++ ", ".intercalate (labels.map fun s => "'" ++ s ++ "'") ++ "]"

/-- The streams an island takes, given its labels (`none`: every one). -/
def StreamTable.accept (t : StreamTable) : Option (List String) → Except String (Option (List Nat))
  | none => .ok none
  | some labels =>
    let wanted := labels.map fun l => if l = unlabeled then "" else l
    let ids := (List.range t.streams.length).filter fun i =>
      (t.streams[i]?.map Stream.label).any (· ∈ wanted)
    if ids = [] then
      let known := (t.streams.map fun s =>
        if s.label = "" then unlabeled else s.label).insertionSort (· ≤ ·)
      .error ("no row of the data has task label(s) "
        ++ labelList (labels.insertionSort (· ≤ ·))
        ++ " (the data has " ++ labelList known ++ ")")
    else .ok (if ids.length = t.streams.length then none else some ids)

/-- A seeded shuffle: a function of the seed text that permutes its list. -/
structure Shuffle where
  shuffle : String → List Nat → List Nat
  perm : ∀ key l, (shuffle key l).Perm l

/-- The text a pass is seeded with; stream 0 is the order of the stride
split. -/
def passKey (seed : Int) (pass stream : Nat) : String :=
  if stream = 0 then s!"yeto-data-pass:{seed}:{pass}"
  else s!"yeto-data-pass:{seed}:s{stream}:{pass}"

/-- The row order of a pass: pass 0 in data order, the others shuffled. -/
def passOrder (sh : Shuffle) (count : Nat) (seed : Int) (pass stream : Nat) : List Nat :=
  if pass = 0 then List.range count
  else sh.shuffle (passKey seed pass stream) (List.range count)

theorem passOrder_perm (sh : Shuffle) (count : Nat) (seed : Int) (pass stream : Nat) :
    (passOrder sh count seed pass stream).Perm (List.range count) := by
  unfold passOrder
  split
  · exact List.Perm.refl _
  · exact sh.perm _ _

/-- The rows of one stream as the map has them; without a table row `k`
is row `k`. -/
structure StreamRows where
  count : Nat
  rows : Option (List Nat)
  agree : ∀ l, rows = some l → l.length = count

namespace StreamRows

def row (r : StreamRows) (k : Nat) : Nat :=
  match r.rows with
  | none => k
  | some l => l.getD k 0

def list (r : StreamRows) : List Nat := r.rows.getD (List.range r.count)

def ofStream (s : Stream) : StreamRows :=
  ⟨s.rows.length, some s.rows, fun _ h => congrArg List.length (some.inj h).symm⟩

end StreamRows

def countOf (streams : List StreamRows) (s : Nat) : Nat := (streams[s]?.map StreamRows.count).getD 0

structure PositionMap (sh : Shuffle) where
  streams : List StreamRows
  seed : Int
  /-- The orders kept, by stream and pass. -/
  orders : SortedMap (Nat ×ₗ Nat) (List Nat)
  cached : ∀ key order, orders.find key = some order →
    order = passOrder sh (countOf streams key.1) seed key.2 key.1

namespace PositionMap

variable {sh : Shuffle}

def ofTable (sh : Shuffle) (t : StreamTable) (seed : Int) : PositionMap sh :=
  ⟨t.streams.map StreamRows.ofStream, seed, .empty, nofun⟩

/-- Keeps a newly computed order and drops the stream's orders from before
the pass before it. -/
def keep (m : PositionMap sh) (stream pass : Nat) : PositionMap sh where
  streams := m.streams
  seed := m.seed
  orders := (m.orders.insert (toLex (stream, pass))
      (passOrder sh (countOf m.streams stream) m.seed pass stream)).filter
    fun key _ => !(key.1 == stream && key.2 + 1 < pass)
  cached := by
    intro key order h
    rw [SortedMap.find_filter, SortedMap.find_insert] at h
    split at h
    next hkey =>
      subst hkey
      exact (some.inj (filter_eq_some_iff.mp h).1).symm
    next => exact m.cached key order (filter_eq_some_iff.mp h).1

def order (m : PositionMap sh) (stream pass : Nat) : List Nat × PositionMap sh :=
  match m.orders.find (toLex (stream, pass)) with
  | some order => (order, m)
  | none => (passOrder sh (countOf m.streams stream) m.seed pass stream, m.keep stream pass)

def row (m : PositionMap sh) (position : Nat) : Except String Nat × PositionMap sh :=
  let stream := streamOf position
  match m.streams[stream]? with
  | none =>
    let n := m.streams.length
    (.error (s!"position {position} is in stream {stream}; "
      ++ s!"the data has {n}"), m)
  | some r =>
    if r.count = 0 then (.error "integer division or modulo by zero", m)
    else
      let pass := localOf position / r.count
      let index := localOf position % r.count
      let found := m.order stream pass
      -- the index is below the length of the order
      (.ok (r.row (found.1.getD index 0)), found.2)

def after (m : PositionMap sh) (positions : List Nat) : PositionMap sh :=
  positions.foldl (fun m p => (m.row p).2) m

end PositionMap

def rowOf (sh : Shuffle) (t : StreamTable) (seed : Int) (position : Nat) : Except String Nat :=
  ((PositionMap.ofTable sh t seed).row position).1

end Yeto.Dispense
