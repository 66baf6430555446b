/-
The sample relay (`syncer/src/sample_relay.rs`): a store-and-forward queue on
the head, as pure functions on `Relay`.

A producer PUTs items under a sequence number of its own; the channel numbers
what it stores from 1. The consumer TAKEs items after a cursor and acknowledges
through an id, and only that deletes. A refused request changes no state.

The two loops of `take` are `popAcked` and `collect`. The hash maps are
functions: a channel no request has named is a new one. Counts are `Nat`: no
sum of bytes in memory comes near 2^64.
-/
import Mathlib.Data.List.Basic
import Mathlib.Algebra.GroupWithZero.Nat

namespace Yeto.SampleRelay

abbrev Payload := List UInt8

structure RelayConfig where
  maxItems : Nat
  maxBytes : Nat
  maxItemBytes : Nat
deriving Repr, DecidableEq

def RelayConfig.validate (cfg : RelayConfig) : Except String Unit :=
  if ¬ 1 ≤ cfg.maxItems then .error "--sample-relay-max-items must be >= 1"
  else if ¬ 1 ≤ cfg.maxItemBytes then
    .error "--sample-relay-max-item-mib must be >= 1"
  else if ¬ cfg.maxItemBytes ≤ cfg.maxBytes then
    .error "--sample-relay-max-mib must be at least --sample-relay-max-item-mib"
  else .ok ()

structure Depth where
  items : Nat
  bytes : Nat
  ackedThrough : Nat
  nextId : Nat
deriving Repr, DecidableEq

inductive PutStatus
  | stored
  | duplicate
  | full
deriving Repr, DecidableEq

structure PutReply where
  seq : Nat
  status : PutStatus
  itemId : Nat
  depth : Depth
deriving Repr, DecidableEq

structure Item where
  id : Nat
  producer : Nat
  payload : Payload
deriving Repr, DecidableEq

/-- Whose sequence a PUT counts in: `(producer, incarnation, stream)`. -/
structure ProducerKey where
  producer : Nat
  incarnation : Nat
  stream : Nat
deriving Repr, DecidableEq

structure Consumer where
  client : Nat
  incarnation : Nat
  token : Nat
deriving Repr, DecidableEq

structure Counters where
  stored : Nat
  storedBytes : Nat
  duplicate : Nat
  full : Nat
  acked : Nat
deriving Repr, DecidableEq

structure Channel where
  nextId : Nat
  items : List Item
  bytes : Nat
  ackedThrough : Nat
  consumer : Option Consumer
  /-- The last accepted `(seq, item id)` of a producer. -/
  producers : ProducerKey → Option (Nat × Nat)
  counters : Counters

namespace Channel

def new : Channel :=
  { nextId := 1
    items := []
    bytes := 0
    ackedThrough := 0
    consumer := none
    producers := fun _ => none
    counters := ⟨0, 0, 0, 0, 0⟩ }

def depth (ch : Channel) : Depth :=
  { items := ch.items.length
    bytes := ch.bytes
    ackedThrough := ch.ackedThrough
    nextId := ch.nextId }

/-- The token of the connection that may read the channel. -/
def current (ch : Channel) : Option Nat := ch.consumer.map Consumer.token

def duplicate (ch : Channel) : Channel :=
  { ch with counters :=
      { ch.counters with duplicate := ch.counters.duplicate + 1 } }

def full (ch : Channel) : Channel :=
  { ch with counters := { ch.counters with full := ch.counters.full + 1 } }

def store (ch : Channel) (key : ProducerKey) (seq : Nat) (payload : Payload) : Channel :=
  { ch with
    nextId := ch.nextId + 1
    items := ch.items ++ [⟨ch.nextId, key.producer, payload⟩]
    bytes := ch.bytes + payload.length
    producers := Function.update ch.producers key (some (seq, ch.nextId))
    counters := { ch.counters with
        stored := ch.counters.stored + 1
        storedBytes := ch.counters.storedBytes + payload.length } }

end Channel

/-- Delete acknowledged items from the front: the items left, the bytes
they hold and the count of deleted ones. -/
def popAcked (ackThrough : Nat) : List Item → Nat → Nat → List Item × Nat × Nat
  | [], bytes, acked => ([], bytes, acked)
  | front :: rest, bytes, acked =>
    if front.id > ackThrough then (front :: rest, bytes, acked)
    else popAcked ackThrough rest (bytes - front.payload.length) (acked + 1)

/-- The items of an answer: at most `maxItems`, and after the first one
only while their total stays within `maxBytes`. `count` and `total` are of
the items collected before. -/
def collect (maxItems maxBytes : Nat) : List Item → Nat → Nat → List Item
  | [], _, _ => []
  | item :: rest, count, total =>
    if count ≥ maxItems then []
    else if count ≠ 0 ∧ total + item.payload.length > maxBytes then []
    else item :: collect maxItems maxBytes rest (count + 1) (total + item.payload.length)

namespace Channel

def acknowledge (ch : Channel) (ackThrough : Nat) : Channel :=
  let left := popAcked ackThrough ch.items ch.bytes ch.counters.acked
  { ch with
    items := left.1
    bytes := left.2.1
    ackedThrough := max ch.ackedThrough ackThrough
    counters := { ch.counters with acked := left.2.2 } }

def answer (ch : Channel) (after maxItems maxBytes : Nat) : List Item := collect maxItems maxBytes
    (ch.items.filter fun item => decide (item.id > after)) 0 0

end Channel

structure Relay where
  epoch : Nat
  cfg : RelayConfig
  channels : Nat → Channel
  nextConnection : Nat

namespace Relay

def new (cfg : RelayConfig) (epoch : Nat) : Relay :=
  { epoch := epoch
    cfg := cfg
    channels := fun _ => .new
    nextConnection := 1 }

def setChannel (r : Relay) (channel : Nat) (ch : Channel) : Relay :=
  { r with channels := Function.update r.channels channel ch }

/-- Register a consumer connection; returns its token. A newer connection
supersedes the older one. -/
def attachConsumer (r : Relay) (channel client incarnation : Nat) : Nat × Relay :=
  let token := r.nextConnection
  let ch := r.channels channel
  (token, { r.setChannel channel { ch with consumer := some ⟨client, incarnation, token⟩ } with
      nextConnection := r.nextConnection + 1 })

def tooLargeText (len limit : Nat) : String :=
  s!"relay item has {len} bytes, limit {limit}"

def put (r : Relay) (channel : Nat) (key : ProducerKey) (seq : Nat)
    (payload : Payload) : Except String (PutReply × Relay) :=
  if ¬ 1 ≤ seq then .error "relay PUT sequence numbers start at 1"
  else if ¬ payload.length ≤ r.cfg.maxItemBytes then
    .error (tooLargeText payload.length r.cfg.maxItemBytes)
  else
    let ch := r.channels channel
    let fresh : PutReply × Relay := if ch.items.length ≥ r.cfg.maxItems
          ∨ ch.bytes + payload.length > r.cfg.maxBytes then
        (⟨seq, .full, 0, ch.full.depth⟩, r.setChannel channel ch.full)
      else
        let ch' := ch.store key seq payload
        (⟨seq, .stored, ch.nextId, ch'.depth⟩, r.setChannel channel ch')
    match ch.producers key with
    | none => .ok fresh
    | some (lastSeq, lastId) =>
      -- A number not above the last one was accepted before.
      if seq ≤ lastSeq then
        .ok (⟨seq, .duplicate, if seq = lastSeq then lastId else 0,
            ch.duplicate.depth⟩, r.setChannel channel ch.duplicate)
      else .ok fresh

def supersededText (channel : Nat) : String :=
  s!"relay superseded: a newer consumer owns channel {channel}"

def beyondText (after ack next : Nat) : String :=
  s!"relay TAKE cursor beyond the last item (after {after}, ack {ack}, "
    ++ s!"next {next})"

/-- Acknowledge items through `ackThrough`, then return items with an id
above `after`. -/
def take (r : Relay) (channel token after ackThrough maxItems maxBytes : Nat) :
    Except String ((List Item × Depth) × Relay) :=
  let ch := r.channels channel
  if ch.current ≠ some token then .error (supersededText channel)
  else if ¬ (ackThrough < ch.nextId ∧ after < ch.nextId) then
    .error (beyondText after ackThrough ch.nextId)
  else
    let ch' := ch.acknowledge ackThrough
    .ok ((ch'.answer after maxItems maxBytes, ch'.depth), r.setChannel channel ch')

end Relay

structure TakeRequest where
  after : Nat
  ackThrough : Nat
  maxItems : Nat
  maxBytes : Nat
deriving Repr, DecidableEq

/-- A TAKE of the connection with `token` (`serve`, which asks for at least
one item). A TAKE that waits is served again after each PUT. -/
def Relay.serveTake (r : Relay) (channel token : Nat) (q : TakeRequest) :
    Except String ((List Item × Depth) × Relay) :=
  r.take channel token q.after q.ackThrough (max q.maxItems 1) q.maxBytes

inductive Request
  | attach (channel client incarnation : Nat)
  | put (channel : Nat) (key : ProducerKey) (seq : Nat) (payload : Payload)
  | take (channel token : Nat) (q : TakeRequest)
deriving Repr, DecidableEq

def Relay.serve (r : Relay) : Request → Relay
  | .attach channel client incarnation => (r.attachConsumer channel client incarnation).2
  | .put channel key seq payload =>
    match r.put channel key seq payload with
    | .ok (_, r') => r'
    | .error _ => r
  | .take channel token q =>
    match r.serveTake channel token q with
    | .ok (_, r') => r'
    | .error _ => r

end Yeto.SampleRelay
