/-
The trainer's end of a channel: the consumer and the pump
(`rl/spot_rollout/relay.py`, `relay_buffer.py`).

The cursor of `RelayConsumer` moves past a whole answer when it arrives; the
acknowledgement moves item by item, in memory, and is sent with the NEXT take.
On a new connection the cursor goes back to the acknowledgement.

`RelayPump.step` takes a batch and settles its items in order. Decoding an item
and adding its cut are functions of its bytes (`Codec`), each of which can also
raise something the pump does not catch. An exception ends the step; `run`
records it and calls `step` again. The head does not restart.
-/
import Yeto.SampleRelay.System
import Yeto.SampleBuffer.Payloads

namespace Yeto.SampleRelay

open Lib SampleBuffer

structure RelayConsumer where
  after : Nat
  acked : Nat
  epoch : Option Nat
  epochResets : Nat
deriving Repr, DecidableEq

namespace RelayConsumer

def new : RelayConsumer := ⟨0, 0, none, 0⟩

def connected (c : RelayConsumer) (epoch : Nat) : RelayConsumer :=
  match c.epoch with
  | none => { c with epoch := some epoch }
  | some old =>
    if epoch ≠ old then
      { after := 0
        acked := 0
        epoch := some epoch
        epochResets := c.epochResets + 1 }
    else { c with after := c.acked, epoch := some epoch }

def ack (c : RelayConsumer) (id : Nat) : RelayConsumer := { c with acked := max c.acked id }

def received (c : RelayConsumer) (items : List Item) : RelayConsumer :=
  match items.getLast? with
  | none => c
  | some item => { c with after := max c.after item.id }

end RelayConsumer

/-- A step that may find its input malformed, which the pump expects, or
raise something else, which it does not. -/
inductive Attempt (α : Type)
  | ok (a : α)
  | malformed
  | raises

/-- The header of an item; a key that is absent, or not of its type, raises
where it is read. -/
structure Header where
  sampleId : Option SampleId
  behaviorVersion : Option Nat
  tokens : Option Nat
deriving Repr, DecidableEq

/-- `decode_item` and `with_cut_metadata`. -/
structure Codec where
  decode : Payload → Attempt (Header × Bytes)
  cut : Header → Bytes → Attempt Bytes

structure RelayPump where
  known : List SampleId
  appended : Nat
  duplicates : Nat
  rejected : Nat
deriving Repr, DecidableEq

def RelayPump.new (b : Buffer) : RelayPump := ⟨b.ids, 0, 0, 0⟩

/-- The pump and its buffer after an item, and whether the item was settled
(acknowledged); otherwise the step raised. -/
structure Settled where
  pump : RelayPump
  buffer : Buffer
  done : Bool

def RelayPump.append (p : RelayPump) (b : Buffer) (header : Header)
    (id : SampleId) (ref : Ref) (fault : Fault) : Settled :=
  match header.behaviorVersion, header.tokens with
  | some version, some tokens =>
    let out := b.appendWith ⟨id, version, ref, tokens⟩ fault
    if out.2 then
      ⟨{ p with known := p.known ++ [id], appended := p.appended + 1 }, out.1, true⟩
    else ⟨p, out.1, false⟩
  | _, _ => ⟨p, b, false⟩

def RelayPump.settle (codec : Codec) (p : RelayPump) (b : Buffer)
    (item : Item) (fault : Fault) : Settled :=
  match codec.decode item.payload with
  | .raises => ⟨p, b, false⟩
  | .malformed => ⟨{ p with rejected := p.rejected + 1 }, b, true⟩
  | .ok (header, payload) =>
    match header.sampleId with
    | none => ⟨p, b, false⟩
    | some id =>
      if id ∈ p.known then
        ⟨{ p with duplicates := p.duplicates + 1 }, b, true⟩
      else
        match codec.cut header payload with
        | .raises => ⟨p, b, false⟩
        | .malformed => ⟨{ p with rejected := p.rejected + 1 }, b, true⟩
        | .ok payload =>
          match b.writePayload id payload, fault with
          | .ok _, .write => ⟨p, b, false⟩
          | .ok (_, b'), .written => ⟨p, b', false⟩
          | .ok (ref, b'), _ => p.append b' header id ref fault
          -- The name is taken: an earlier pump stopped between the
          -- payload and its entry.
          | .error _, _ =>
            if b.hasPayload (payloadName id) then
              p.append b header id (payloadName id) fault
            else ⟨p, b, false⟩

inductive TakeLink
  | down
  | up (token : Nat)
  | asked (token : Nat) (q : TakeRequest)
  | answered (token : Nat) (out : Except String (List Item))

structure PumpWorld where
  history : History
  channel : Nat
  consumer : RelayConsumer
  link : TakeLink
  pump : RelayPump
  buffer : Buffer
  batch : List Item
  /-- TAKE requests left behind in connections that broke. -/
  stale : List (Nat × TakeRequest)

def PumpWorld.new (cfg : RelayConfig) (epoch channel : Nat) : PumpWorld :=
  { history := .new cfg epoch
    channel := channel
    consumer := .new
    link := .down
    pump := .new .empty
    buffer := .empty
    batch := []
    stale := [] }

inductive PumpOp
  /-- A request of any other client; the channel has no other consumer. -/
  | serve (q : Request)
  /-- The relay attaches a connection whose WELCOME arrives, or is lost. -/
  | connect (welcome : Bool)
  | send (maxItems maxBytes : Nat)
  | handle
  | receive
  | breakLink
  | handleStale (i : Nat)
  | dropStale (i : Nat)
  /-- The next item of the batch is settled, or raises. -/
  | item (fault : Fault)
  | restart
deriving Repr, DecidableEq

def Request.producing (channel : Nat) : Request → Bool
  | .attach c _ _ => decide (c ≠ channel)
  | .put _ _ _ _ => true
  | .take c _ _ => decide (c ≠ channel)

def TakeLink.leftover : TakeLink → List (Nat × TakeRequest)
  | .asked token q => [(token, q)]
  | _ => []

/-- The relay's answer to a TAKE, as the consumer reads it. -/
def PumpWorld.answer (w : PumpWorld) (token : Nat) (q : TakeRequest) : Except String (List Item) :=
  (w.history.relay.serveTake w.channel token q).map fun out => out.1.1

def PumpWorld.exec (codec : Codec) (w : PumpWorld) : PumpOp → Option PumpWorld
  | .serve q =>
    if q.producing w.channel then
      some { w with history := w.history.serve q }
    else none
  | .connect welcome =>
    match w.link, w.batch with
    | .down, [] =>
      let h := w.history.serve (.attach w.channel 0 0)
      if welcome then
        some { w with
          history := h
          consumer := w.consumer.connected w.history.relay.epoch
          link := .up w.history.relay.nextConnection }
      else some { w with history := h }
    | _, _ => none
  | .send maxItems maxBytes =>
    match w.link, w.batch with
    | .up token, [] =>
      let q := ⟨w.consumer.after, w.consumer.acked, maxItems, maxBytes⟩
      some { w with link := .asked token q }
    | _, _ => none
  | .handle =>
    match w.link with
    | .asked token q =>
      some { w with
        history := w.history.serve (.take w.channel token q)
        link := .answered token (w.answer token q) }
    | _ => none
  | .receive =>
    match w.link with
    | .answered token (.ok items) =>
      some { w with
        consumer := w.consumer.received items
        link := .up token
        batch := items }
    | .answered _ (.error _) => some { w with link := .down }
    | _ => none
  | .breakLink => some { w with link := .down, stale := w.stale ++ w.link.leftover }
  | .handleStale i =>
    match w.stale[i]? with
    | some (token, q) =>
      some { w with
        history := w.history.serve (.take w.channel token q)
        stale := w.stale.eraseIdx i }
    | none => none
  | .dropStale i => some { w with stale := w.stale.eraseIdx i }
  | .item fault =>
    match w.batch with
    | [] => none
    | item :: rest =>
      let out := w.pump.settle codec w.buffer item fault
      if out.done then
        some { w with
          pump := out.pump
          buffer := out.buffer
          consumer := w.consumer.ack item.id
          batch := rest }
      else
        -- The exception leaves the loop: the rest of the batch is gone,
        -- the connection and the cursor stay.
        some { w with pump := out.pump, buffer := out.buffer, batch := [] }
  | .restart =>
    some { w with
      consumer := .new
      link := .down
      pump := .new w.buffer
      batch := []
      stale := w.stale ++ w.link.leftover }

/-- The runs from a new relay and an empty buffer whose steps are
`allowed`. -/
def pumpRuns (codec : Codec) (cfg : RelayConfig) (epoch channel : Nat)
    (allowed : PumpWorld → PumpOp → Bool) : System PumpWorld :=
  .guarded (.new cfg epoch channel) allowed (PumpWorld.exec codec)

end Yeto.SampleRelay
