/-
Fragments on their way to a learner: the frames of a connection, the pending
map of a forwarder (`syncer/src/resend.rs`) and the forwarder itself
(`ResendConn` and `resend_forwarder` in `syncer/src/server.rs`).

A forwarder takes a fragment off its map under the lock (`pop`), then waits for
room in the learner's writer queues: separate steps. A send ends in the writer
queues (`handOver`) or with an error that ends the forwarder (`fail`). `unmet`
of the source is the number of its targets.
-/
import Yeto.Downlink.Model
import Yeto.Server.Registry
import Mathlib.Data.List.MinMax

namespace Yeto.Server

open Lib Downlink

inductive Body
  | plain (values : List F32)
  | encoded (bcast : EncodedBcast)
deriving DecidableEq, Repr

structure Frame where
  p : Nat
  version : Nat
  body : Body
deriving DecidableEq, Repr

structure GlobalState where
  versions : List Nat
  params : List (List F32)
  globalStep : Nat
  downlink : Option DownlinkAnchors
deriving DecidableEq

namespace GlobalState

def version (st : GlobalState) (p : Nat) : Nat := st.versions.getD p 0

def values (st : GlobalState) (p : Nat) : List F32 := st.params.getD p []

end GlobalState

def word32 (p : Nat) : U32 := Fin.ofNat _ p

def word64 (version : Nat) : U64 := Fin.ofNat _ version

structure Pending where
  fragments : Nat
  entries : SortedMap Nat (Nat × List F32)
  /-- Newest version already handed to the forwarder, per fragment. -/
  sent : SortedMap Nat Nat
  /-- Version each fragment must be handed over at before the tail runs. -/
  targets : SortedMap Nat Nat
deriving DecidableEq

namespace Pending

def new (fragments : Nat) : Pending := ⟨fragments, .empty, .empty, .empty⟩

def require (m : Pending) (e : Nat × Nat × List F32) : Pending :=
  { m with targets := m.targets.insert e.1 (max ((m.targets.find e.1).getD 0) e.2.1) }

def untargeted (m : Pending) (e : Nat × Nat × List F32) : Bool :=
  (m.targets.find e.1).isNone

/-- Every version pending now has to go out. -/
def requirePending (m : Pending) : Pending :=
  m.entries.entries.foldl require m

def isPending (m : Pending) (p : Nat) : Bool := m.entries.contains p

/-- Offer a version: ignored when this or a newer one was sent or is
pending; replaces an older pending one. True when queued. -/
def offer (m : Pending) (p version : Nat) (values : List F32) : Bool × Pending :=
  if p ≥ m.fragments then (false, m)
  else if (m.sent.find p).any (fun sent => decide (sent ≥ version)) then
    (false, m)
  else if (m.entries.find p).any (fun e => decide (e.1 ≥ version)) then
    (false, m)
  else (true, { m with entries := m.entries.insert p (version, values) })

/-- The order of the next send: targets first, then the oldest version,
then the lowest fragment. -/
def sendKey (m : Pending) (e : Nat × Nat × List F32) : Nat ×ₗ Nat ×ₗ Nat :=
  toLex (if m.targets.contains e.1 then 0 else 1, toLex (e.2.1, e.1))

def pop (m : Pending) : Option ((Nat × Nat × List F32) × Pending) :=
  match m.entries.entries.argmin m.sendKey with
  | none => none
  | some e =>
    some (e, { m with
        entries := m.entries.erase e.1
        sent := m.sent.insert e.1 e.2.1
        targets := if (m.targets.find e.1).any (fun target => decide (e.2.1 ≥ target))
          then m.targets.erase e.1 else m.targets })

def markSent (m : Pending) (p version : Nat) : Pending :=
  if p < m.fragments then
    { m with sent := m.sent.insert p (max ((m.sent.find p).getD version) version) }
  else m

end Pending

/-- The FULL header of a version a forwarder sends. -/
inductive FullHeader
  | encoded (head : List UInt8)
  /-- No anchor at this version: the forwarder hashes the values. -/
  | exact
deriving DecidableEq, Repr

/-- One frame of the initial cut, sent exactly as queued. -/
structure ExactFrame where
  p : Nat
  version : Nat
  values : List F32
  header : Option FullHeader
deriving DecidableEq, Repr

structure ResendConn where
  group : Group
  /-- A bf16-downlink session: every version goes out as a FULL. -/
  downlink : Bool
  pending : Pending
  prelude : List ExactFrame
  /-- A fragment was popped and is not yet in the writer queues. -/
  inFlight : Option Frame
  /-- That fragment met a target when it was popped. -/
  targetInFlight : Bool
  /-- The FULL header of the pending version of each fragment. -/
  fullHeaders : SortedMap Nat (Nat × FullHeader)
  ended : Bool
deriving DecidableEq

namespace ResendConn

def new (st : GlobalState) (group : Group) : ResendConn where
  group := group
  downlink := st.downlink.isSome
  pending := .new st.params.length
  prelude := []
  inFlight := none
  targetInFlight := false
  fullHeaders := .empty
  ended := false

def offer (c : ResendConn) (p version : Nat) (values : List F32) : ResendConn :=
  if c.ended then c
  else { c with pending := (c.pending.offer p version values).2 }

def offerFull (c : ResendConn) (p version : Nat) (values : List F32)
    (header : FullHeader) : ResendConn :=
  if c.ended then c
  else
    match c.pending.offer p version values with
    | (false, _) => c
    | (true, pending) =>
      { c with
        pending
        fullHeaders := c.fullHeaders.insert p (version, header) }

/-- Offer a newly published version: the f32 masters, or on a downlink
session the FULL that carries the shared anchor. -/
def offerPublished (c : ResendConn) (p version : Nat) (params : List F32)
    (full : Option EncodedBcast) : ResendConn :=
  match full.filter fun _ => c.downlink with
  | some full => c.offerFull p version full.values (.encoded full.head)
  | none => c.offer p version params

def queueExact (c : ResendConn) (frame : ExactFrame) : ResendConn :=
  if c.ended then c else { c with prelude := c.prelude ++ [frame] }

/-- Offer the current value of one fragment. On a downlink session it is a
FULL with the shared anchor, or the exact parameters. A plain session
offers it to an ended forwarder too. -/
def oweOne (st : GlobalState) (c : ResendConn) (p : Nat) : ResendConn :=
  let version := st.version p
  if c.downlink then
    match st.downlink.bind fun a =>
        a.anchoredFull (word32 p) (word64 version) with
    | some full => c.offerFull p version full.values (.encoded full.head)
    | none => c.offerFull p version (st.values p) .exact
  else { c with pending := (c.pending.offer p version (st.values p)).2 }

/-- Offer the current value of each fragment and make every pending entry
a target. -/
def owe (st : GlobalState) (c : ResendConn) (fragments : List Nat) : ResendConn :=
  let c := (fragments.filter fun p => decide (p < st.params.length)).foldl (oweOne st) c
  { c with pending := c.pending.requirePending }

def owePending (c : ResendConn) : ResendConn := { c with pending := c.pending.requirePending }

def caughtUp (c : ResendConn) : Bool :=
  c.ended || (decide (c.pending.targets.size = 0) && !c.targetInFlight)

/-- Every offered version is in the writer queues, or the forwarder
ended. -/
def drained (c : ResendConn) : Bool :=
  c.ended || (c.prelude.isEmpty && decide (c.pending.entries.size = 0) && c.inFlight.isNone)

/-- `current`, with each fragment that still has a newer version pending
lowered to the version already handed over (0: none). -/
def handedOver (c : ResendConn) (current : List Nat) : List Nat := current.mapIdx fun p version =>
    if c.pending.isPending p then (c.pending.sent.find p).getD 0
    else version

/-- The frame a forwarder sends for a popped version: none when a downlink
session has no FULL header for it. -/
def frameOf (n : Numerics) (c : ResendConn) (p version : Nat)
    (values : List F32) (header : Option FullHeader) : Option Frame :=
  if c.downlink then
    match header with
    | some (.encoded head) => some ⟨p, version, .encoded ⟨head, .f32, values⟩⟩
    | some .exact =>
      some ⟨p, version, .encoded (DownlinkAnchors.exactFull n (word32 p) (word64 version) values)⟩
    | none => none
  else some ⟨p, version, .plain values⟩

def fly (c : ResendConn) (frame : Option Frame) (target : Bool) : ResendConn :=
  match frame with
  | some frame => { c with inFlight := some frame, targetInFlight := target }
  | none => { c with inFlight := none, targetInFlight := false, ended := true }

/-- The forwarder takes its next fragment; none when there is none, or one
is still in flight. -/
def pop (n : Numerics) (c : ResendConn) : Option ResendConn :=
  if c.ended || c.inFlight.isSome then none
  else
    match c.prelude with
    | frame :: prelude =>
      -- An exact frame (the initial cut) goes first.
      let c := { c with
        prelude
        pending := c.pending.markSent frame.p frame.version }
      some (c.fly (c.frameOf n frame.p frame.version frame.values frame.header) false)
    | [] =>
      match c.pending.pop with
      | none => none
      | some ((p, version, values), pending) =>
        let header := (c.fullHeaders.find p).bind fun h =>
          if h.1 = version then some h.2 else none
        let target := decide (pending.targets.size < c.pending.targets.size)
        let c := { c with
          pending
          fullHeaders := if c.downlink then c.fullHeaders.erase p
            else c.fullHeaders }
        some (c.fly (c.frameOf n p version values header) target)

def handOver (c : ResendConn) : Option (Frame × ResendConn) := c.inFlight.map fun frame =>
    (frame, { c with inFlight := none, targetInFlight := false })

def fail (c : ResendConn) : ResendConn :=
  { c with inFlight := none, targetInFlight := false, ended := true }

end ResendConn

end Yeto.Server
