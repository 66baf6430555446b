/-
The lanes of a sample buffer (`BufferLane`, `LaneCursorLog` and
`ObjectLaneCursorLog` of `yeto/rl/engine/merged_release.py`,
`BatchReader.take` of `yeto/rl/adapters/miles/buffer_rollout.py`, `select` and
`reset_to` of `yeto/rl/engine/sample_buffer.py`).

The directory log is the TEXT of its file: a crash leaves any beginning of a
line, the next append goes on where the text ends, and a restart reads the
lines as JSON. A put of an object whose answer is lost leaves the object there
while the writer takes it for failed.

A take selects in several goes from a growing prefix of the index (`view`),
writes its record and then returns. A lane also keeps its takes, newest first.
-/
import Yeto.Lib.Json
import Yeto.Lib.Lines
import Yeto.Lib.System
import Mathlib.Algebra.Group.Nat.Defs

namespace Yeto.Lanes

open Lib
open Lib.Lines (split)

def cursorKey : Json.Key :=
  ⟨'c', "ursor".toList, by decide, List.all_eq_true.mp (by decide)⟩

def positionsKey : Json.Key :=
  ⟨'p', "ositions".toList, by decide, List.all_eq_true.mp (by decide)⟩

def rolloutIdKey : Json.Key :=
  ⟨'r', "ollout_id".toList, by decide, List.all_eq_true.mp (by decide)⟩

/-- `_record`, with its keys in order. -/
def record (rolloutId : Nat) (positions : List Nat) (cursor : Nat) : Json.Record where
  head := (cursorKey, .num cursor)
  tail := [(positionsKey, .nums positions), (rolloutIdKey, .num rolloutId)]

def cursorOf (line : List Char) : Option Nat :=
  match (Json.loads line).bind (Json.Value.get cursorKey.chars) with
  | some (.num n) => some n
  | _ => none

def splitlines (text : List Char) : List (List Char) :=
  (split text).1 ++ if (split text).2 = [] then [] else [(split text).2]

/-- The cursor log of a lane: the text of a file, or one object per round. -/
inductive Log
  | file (text : List Char)
  | objects (texts : List (List Char))

def Log.lastCursor : Log → Nat
  | .file text => (splitlines text).foldl (fun cursor line => (cursorOf line).getD cursor) 0
  | .objects texts => (texts.reverse.findSome? cursorOf).getD 0

def putAt (texts : List (List Char)) (k : Nat) (text : List Char) : List (List Char) :=
  if k < texts.length then texts.set k text else texts ++ [text]

def Log.append (log : Log) (keys : Nat) (r : Json.Record) : Log :=
  match log with
  | .file text => .file (text ++ r.dumps ++ ['\n'])
  | .objects texts => .objects (putAt texts keys r.dumps)

/-- An append that stops after `n` characters; an object is there or not. -/
def Log.tear (log : Log) (keys : Nat) (r : Json.Record) (n : Nat) : Log :=
  match log with
  | .file text => .file (text ++ (r.dumps ++ ['\n']).take n)
  | .objects texts => if n = 0 then .objects texts else .objects (putAt texts keys r.dumps)

def Log.listed : Log → Nat
  | .file _ => 0
  | .objects texts => texts.length

def owns {N : Nat} (lane : Fin N) (position : Nat) : Bool := position % N == lane

/-- The loop of `select`, `fuel` times at most: what it returns and where it
stops. -/
def select (own : Nat → Bool) (len : Nat) : Nat → Nat → Nat → List Nat × Nat
  | 0, _, pos => ([], pos)
  | fuel + 1, limit, pos =>
    if 0 < limit ∧ pos < len then
      if own pos then
        let rest := select own len fuel (limit - 1) (pos + 1)
        (pos :: rest.1, rest.2)
      else select own len fuel limit (pos + 1)
    else ([], pos)

structure Taking where
  rolloutId : Nat
  groups : Nat
  /-- The oldest version it trains; none trains all. -/
  floor : Option Int
  start : Nat
  chosen : List Nat
  stale : List Nat
  logged : Bool

structure Reader where
  read : Nat
  /-- How many objects its log listed, with those it wrote. -/
  keys : Nat
  taking : Option Taking

structure Take where
  start : Nat
  stop : Nat
  chosen : List Nat
  stale : List Nat
  returned : Bool

structure Lane where
  log : Log
  reader : Option Reader
  takes : List Take

def Taking.ended (k : Taking) (read : Nat) (returned : Bool) : Take :=
  ⟨k.start, read, k.chosen, k.stale, returned⟩

def Taking.record (k : Taking) (read : Nat) : Json.Record := Lanes.record k.rolloutId k.chosen read

/-- The entry at a position is not older than the floor. -/
def Taking.trains (k : Taking) (versions : List Int) (p : Nat) : Bool :=
  k.floor.all fun floor => decide (floor ≤ versions.getD p 0)

/-- Enough groups; or the data ended, and what is left is not nothing. -/
def Taking.complete (k : Taking) (read len : Nat) (dataEnded : Bool) : Bool :=
  decide (k.groups ≤ k.chosen.length)
    || (dataEnded && decide (read = len) && decide (k.chosen ≠ []))

inductive LaneOp
  | start (view : Nat)
  | take (rolloutId groups : Nat) (floor : Option Int)
  | select (view : Nat)
  | fail
  | append
  /-- The write of the record stops after `n` characters, and the take raises
  or the process dies. -/
  | tear (n : Nat) (dies : Bool)
  | giveBack
  | crash

def Lane.drop (l : Lane) (r : Reader) : List Take :=
  match r.taking with
  | none => l.takes
  | some k => k.ended r.read false :: l.takes

def Lane.exec (own : Nat → Bool) (versions : List Int) (dataEnded : Bool)
    (l : Lane) : LaneOp → Option Lane
  | .start view =>
    match l.reader with
    | some _ => none
    | none =>
      -- `reset_to` raises for a cursor behind the entries it sees.
      if l.log.lastCursor ≤ min view versions.length then
        some { l with
          reader := some ⟨l.log.lastCursor, l.log.listed, none⟩ }
      else none
  | .take rolloutId groups floor =>
    match l.reader with
    | some ⟨read, keys, none⟩ =>
      if 0 < groups then
        some { l with
          reader := some ⟨read, keys,
            some ⟨rolloutId, groups, floor, read, [], [], false⟩⟩ }
      else none
    | _ => none
  | .select view =>
    match l.reader with
    | some ⟨read, keys, some k⟩ =>
      if k.logged ∨ k.groups ≤ k.chosen.length then none
      else
        let len := min view versions.length
        let out := Lanes.select own len (len - read)
          (k.groups - k.chosen.length) read
        some { l with
          reader := some ⟨out.2, keys, some { k with
            chosen := k.chosen ++ out.1.filter (k.trains versions)
            stale := k.stale ++ out.1.filter (!k.trains versions ·) }⟩ }
    | _ => none
  | .fail =>
    match l.reader with
    | some ⟨read, keys, some k⟩ =>
      some { l with
        reader := some ⟨read, keys, none⟩
        takes := k.ended read false :: l.takes }
    | _ => none
  | .append =>
    match l.reader with
    | some ⟨read, keys, some k⟩ =>
      if ¬ k.logged ∧ k.complete read versions.length dataEnded
          ∧ keys < 10 ^ 10 then
        some { l with
          log := l.log.append keys (k.record read)
          reader := some ⟨read, keys + 1, some { k with logged := true }⟩ }
      else none
    | _ => none
  | .tear n dies =>
    match l.reader with
    | some ⟨read, keys, some k⟩ =>
      if ¬ k.logged ∧ k.complete read versions.length dataEnded
          ∧ keys < 10 ^ 10 then
        some
          { log := l.log.tear keys (k.record read) n
            reader := if dies then none else some ⟨read, keys, none⟩
            takes := k.ended read false :: l.takes }
      else none
    | _ => none
  | .giveBack =>
    match l.reader with
    | some ⟨read, keys, some k⟩ =>
      if k.logged then
        some { l with
          reader := some ⟨read, keys, none⟩
          takes := k.ended read true :: l.takes }
      else none
    | _ => none
  | .crash =>
    match l.reader with
    | some r => some { l with
        reader := none
        takes := l.drop r }
    | none => none

structure State (N : Nat) where
  versions : List Int
  dataEnded : Bool
  lanes : Fin N → Lane

/-- No entry, no reader, and empty logs: of a directory or of objects. -/
def State.new {N : Nat} (objects : Fin N → Bool) : State N where
  versions := []
  dataEnded := false
  lanes i := ⟨if objects i then .objects [] else .file [], none, []⟩

inductive Op (N : Nat)
  | grow (versions : List Int)
  | endData
  | lane (i : Fin N) (op : LaneOp)

def State.exec {N : Nat} (s : State N) : Op N → Option (State N)
  | .grow versions =>
    if s.dataEnded then none
    else some { s with versions := s.versions ++ versions }
  | .endData => some { s with dataEnded := true }
  | .lane i op =>
    ((s.lanes i).exec (owns i) s.versions s.dataEnded op).map fun l =>
      { s with lanes := Function.update s.lanes i l }

def lanes {N : Nat} (objects : Fin N → Bool) (allowed : State N → Op N → Bool) : System (State N) :=
  System.guarded (State.new objects) allowed State.exec

end Yeto.Lanes
