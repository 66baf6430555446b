/-
The incarnation lease of a sampler island and the gate of the trainer's buffer
feed (`yeto/rl/engine/incarnation_lease.py`).

A claim READS the record and then PUTS a new one. A read may fail, and is then
as if no lease were there. What a claimer or the gate sees of the append-only
buffer is a prefix. Every stamp is an input of its step: no two clocks need to
agree. A read of the gate answers with nothing or with any record the lease
ever had.
-/
import Yeto.Lib.System

namespace Yeto.Incarnation

open Lib

/-- What the lease reads of an index entry: the sampler and the incarnation
of its round record, and when it was appended. -/
structure Entry where
  round : Option (String × String)
  appendedAt : Nat
deriving DecidableEq, Repr

structure Lease where
  sampler : String
  incarnation : String
  claimedAt : Nat
  generation : Nat
  /-- The incarnations this lease replaced, oldest first. -/
  superseded : List String
  /-- Groups of an incarnation the claimer saw in its buffer. -/
  sealed : List (String × Nat)
deriving DecidableEq, Repr

def addNew (acc : List String) (x : String) : List String := if x ∈ acc then acc else acc ++ [x]

/-- The incarnations of the groups of `sampler`, one for each group. -/
def incarnations (entries : List Entry) (sampler : String) : List String :=
  entries.filterMap fun e => e.round.bind fun r =>
    if r.1 = sampler then some r.2 else none

def sealedCounts (entries : List Entry) (sampler : String) : List (String × Nat) :=
  let names := incarnations entries sampler
  (names.foldl addNew []).map fun inc => (inc, names.count inc)

structure Claim where
  sampler : String
  incarnation : String
  /-- What it saw of the buffer. -/
  entries : List Entry
  /-- The incarnations it was told of. -/
  earlier : List String
  previous : Option Lease
  /-- How many leases had been put when it read. -/
  readAt : Nat
deriving DecidableEq, Repr

def Claim.replaced (c : Claim) : List String := (match c.previous with
    | none => []
    | some lease => lease.superseded ++ [lease.incarnation]) ++ c.earlier

def Claim.record (c : Claim) (clock : Nat) : Lease :=
  let superseded := (c.replaced.filter (· ≠ c.incarnation)).foldl addNew []
  let sealed := (sealedCounts c.entries c.sampler).filter (·.1 ≠ c.incarnation)
  { sampler := c.sampler
    incarnation := c.incarnation
    claimedAt := clock
    generation := (c.previous.map Lease.generation).getD 0 + 1
    superseded := (sealed.map Prod.fst).foldl addNew superseded
    sealed }

structure GateConfig where
  refresh : Nat
  clockMargin : Nat

/-- The gate's memory: the leases it read and when (the newest read of a
sampler first), and the round records it counted over the positions below
`upto`. -/
structure Gate where
  leases : List (String × Nat × Option Lease)
  seen : List (String × String)
  upto : Nat
  stale : Nat

/-- `_lease`, where a read of the store answers `answer`. -/
def Gate.lease (cfg : GateConfig) (g : Gate) (sampler : String) (force : Bool)
    (now : Nat) (answer : Option Lease) : Gate × Option Lease :=
  let read := ({ g with leases := (sampler, now, answer) :: g.leases }, answer)
  match g.leases.lookup sampler with
  | none => read
  | some (at_, cached) =>
    if now - at_ ≥ cfg.refresh ∨ (force = true ∧ now - at_ ≥ 1000) then read
    else (g, cached)

/-- `_ordinal`: the rank of the entry at `position` among the entries of its
incarnation. -/
def Gate.ordinal (g : Gate) (entries : List Entry) (position : Nat)
    (key : String × String) : Gate × Nat :=
  -- Read again (a reset cursor): count from the start.
  let g := if position < g.upto then { g with seen := [], upto := 0 } else g
  let seen := g.seen ++ ((entries.take (position + 1)).drop g.upto).filterMap Entry.round
  ({ g with
      seen
      upto := max g.upto (min (position + 1) entries.length) }, seen.count key)

def Lease.sealedOf (lease : Lease) (inc : String) : Nat := (lease.sealed.lookup inc).getD 0

/-- What a lease says of an entry: none to train it, else why it is stale. -/
def ruling (margin : Nat) (lease : Lease) (sampler inc : String)
    (ordinal appendedAt : Nat) : Option String :=
  if lease.incarnation = inc ∨ inc ∉ lease.superseded then none
  else if ordinal ≤ lease.sealedOf inc then none
  else if appendedAt ≠ 0 ∧ appendedAt + margin < lease.claimedAt then none
  else
    some (s!"incarnation {inc} of {sampler} superseded by "
      ++ s!"{lease.incarnation} (generation {lease.generation}); entry "
      ++ s!"{ordinal} of it, {lease.sealedOf inc} sealed")

/-- The lease a verdict is taken by: the cached one, read again at once when
it does not know the incarnation. -/
def Gate.judging (cfg : GateConfig) (g : Gate) (sampler inc : String)
    (now later : Nat) (first second : Option Lease) : Gate × Option Lease :=
  let read := g.lease cfg sampler false now first
  match read.2 with
  | none => read
  | some lease =>
    if lease.incarnation ≠ inc ∧ inc ∉ lease.superseded then
      let again := read.1.lease cfg sampler true later second
      (again.1, some (again.2.getD lease))
    else read

structure Verdict where
  position : Nat
  lease : Option Lease
  stale : Option String
deriving DecidableEq, Repr

structure Reads where
  now : Nat
  first : Option Lease
  later : Nat
  second : Option Lease

def Gate.verdict (cfg : GateConfig) (g : Gate) (entries : List Entry)
    (entry : Entry) (position : Nat) (reads : Reads) : Gate × Verdict :=
  match entry.round with
  | none => (g, ⟨position, none, none⟩)
  | some (sampler, inc) =>
    let counted := g.ordinal entries position (sampler, inc)
    let judging := counted.1.judging cfg sampler inc reads.now reads.later reads.first reads.second
    match judging.2 with
    | none => (judging.1, ⟨position, none, none⟩)
    | some lease =>
      let stale := ruling cfg.clockMargin lease sampler inc counted.2 entry.appendedAt
      ({ judging.1 with
          stale := judging.1.stale + if stale.isSome then 1 else 0 }, ⟨position, some lease, stale⟩)

structure Put where
  record : Lease
  /-- How many leases had been put before it. -/
  index : Nat
  /-- How many had been put when its claim read the lease. -/
  readAt : Nat
  seen : Nat
deriving DecidableEq, Repr

structure State where
  entries : List Entry
  claims : List Claim
  puts : List Put
  gate : Gate
  verdicts : List Verdict

def State.new : State where
  entries := []
  claims := []
  puts := []
  gate := ⟨[], [], 0, 0⟩
  verdicts := []

def State.lease (s : State) (sampler : String) : Option Put :=
  s.puts.find? (·.record.sampler = sampler)

def State.claimed (s : State) (sampler inc : String) : Bool :=
  s.claims.any (fun c => c.sampler = sampler ∧ c.incarnation = inc)
    || s.puts.any fun p =>
      p.record.sampler = sampler ∧ p.record.incarnation = inc

/-- The answer of a read of the gate: nothing, or a record the lease had. -/
def State.answers (s : State) (sampler : String) : Option Lease → Bool
  | none => true
  | some lease => s.puts.any fun p =>
    p.record = lease ∧ lease.sampler = sampler

inductive Op
  | read (sampler inc : String) (view : Nat) (earlier : List String) (ok : Bool)
  | put (c : Claim) (clock : Nat)
  | write (entry : Entry)
  /-- The feed asks the gate about the entry at a position, and sees the
  first `view` entries. -/
  | judge (position view : Nat) (reads : Reads)

def State.exec (cfg : GateConfig) (s : State) : Op → Option State
  | .read sampler inc view earlier ok =>
    if s.claimed sampler inc then none
    else
      let previous := if ok then (s.lease sampler).map Put.record else none
      some { s with
        claims := s.claims ++ [⟨sampler, inc, s.entries.take view, earlier,
          previous, s.puts.length⟩] }
  | .put c clock =>
    if c ∈ s.claims then
      some { s with
        claims := s.claims.erase c
        puts := ⟨c.record clock, s.puts.length, c.readAt, c.entries.length⟩ :: s.puts }
    else none
  | .write entry => some { s with entries := s.entries ++ [entry] }
  | .judge position view reads =>
    match (s.entries.take view)[position]? with
    | none => none
    | some entry =>
      if (entry.round.all fun r =>
          s.answers r.1 reads.first && s.answers r.1 reads.second) then
        let judged := s.gate.verdict cfg (s.entries.take view) entry position reads
        some { s with
          gate := judged.1
          verdicts := judged.2 :: s.verdicts }
      else none

/-- The runs of the lease whose steps meet `allowed`. -/
def lease (cfg : GateConfig) (allowed : State → Op → Bool) : System State :=
  System.guarded State.new allowed (State.exec cfg)

end Yeto.Incarnation
