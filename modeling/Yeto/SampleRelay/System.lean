/-
The relay with one producer on a link that breaks. `History` is a relay
together with everything it stored and every consumer connection it attached.

`Producer` is `RelayProducer` inside `put_blocking` (`relay.py`): `put` takes
the next number and sends it until it is answered, on a new connection after
each break; FULL gives the number back, and the call waits and puts again, or
is told to stop.

A connection that breaks may leave a request behind in its socket: the relay
may still handle it at any later time, or never (`World.stale`). All other
clients of the relay send what they like (`Op.serve`), on other sequences.
-/
import Yeto.SampleRelay.Model
import Yeto.Lib.System

namespace Yeto.SampleRelay

open Lib

structure Store where
  channel : Nat
  key : ProducerKey
  seq : Nat
  id : Nat
  payload : Payload
deriving Repr, DecidableEq

def Relay.stored (r : Relay) : Request → List Store
  | .put channel key seq payload =>
    match r.put channel key seq payload with
    | .ok (reply, _) =>
      if reply.status = .stored then
        [⟨channel, key, seq, reply.itemId, payload⟩]
      else []
    | .error _ => []
  | _ => []

def Relay.attaches (r : Relay) : Request → List (Nat × Nat)
  | .attach channel client incarnation =>
    [(channel, (r.attachConsumer channel client incarnation).1)]
  | _ => []

structure History where
  relay : Relay
  stores : List Store
  attached : List (Nat × Nat)

namespace History

def new (cfg : RelayConfig) (epoch : Nat) : History := ⟨.new cfg epoch, [], []⟩

def serve (h : History) (q : Request) : History :=
  { relay := h.relay.serve q
    stores := h.stores ++ h.relay.stored q
    attached := h.attached ++ h.relay.attaches q }

end History

inductive Phase
  | idle
  | putting (data : Payload)
  | waiting (data : Payload)
deriving Repr, DecidableEq

inductive Link
  | down
  | up
  | asked
  | answered (reply : Except String PutReply)

structure Producer where
  channel : Nat
  key : ProducerKey
  seq : Nat
  phase : Phase
  link : Link
  stored : Nat
  fullAnswers : Nat
  reconnects : Nat

def Producer.new (channel : Nat) (key : ProducerKey) : Producer :=
  ⟨channel, key, 0, .idle, .down, 0, 0, 0⟩

/-- An item the producer reported as stored: `put_blocking` returned its
acknowledgement. -/
structure Report where
  seq : Nat
  data : Payload
deriving Repr, DecidableEq

structure World where
  history : History
  producer : Producer
  /-- Requests left behind in connections that broke. -/
  stale : List (Nat × Payload)
  reports : List Report

def World.new (cfg : RelayConfig) (epoch channel : Nat) (key : ProducerKey) : World :=
  ⟨.new cfg epoch, .new channel key, [], []⟩

inductive Op
  | serve (q : Request)
  | call (data : Payload)
  | connect
  | send
  | handle
  /-- The relay refuses it before `put`: the producer's member is retired. -/
  | fence (text : String)
  | receive
  | breakLink
  /-- The relay handles a request left behind in a broken connection. -/
  | handleStale (i : Nat)
  | dropStale (i : Nat)
  /-- The retries end with an exception: `RelayStopped`, `RelayGone`, or the
  attempts are used up. -/
  | giveUp
  | again
  /-- `should_stop()` after FULL: `put_blocking` returns `None`. -/
  | stop
deriving Repr, DecidableEq

/-- Whether a request is none of the producer's own: it does not put into
the producer's sequence. -/
def Request.foreign (p : Producer) : Request → Bool
  | .put channel key _ _ => decide (¬ (channel = p.channel ∧ key = p.key))
  | _ => true

def World.answered (w : World) (data : Payload) (reply : PutReply) : World :=
  let p := w.producer
  -- An answer to another number is a broken link to the producer, which
  -- keeps the connection and sends again.
  if reply.seq ≠ p.seq then
    { w with producer := { p with link := .up } }
  else
    match reply.status with
    | .full =>
      { w with producer := { p with
            seq := p.seq - 1
            fullAnswers := p.fullAnswers + 1
            phase := .waiting data
            link := .up } }
    | .stored | .duplicate =>
      { w with
        producer := { p with
            stored := p.stored + 1
            phase := .idle
            link := .up }
        reports := w.reports ++ [⟨p.seq, data⟩] }

def Producer.leftover (p : Producer) : List (Nat × Payload) :=
  match p.link, p.phase with
  | .asked, .putting data => [(p.seq, data)]
  | _, _ => []

def Producer.request (p : Producer) (seq : Nat) (data : Payload) : Request :=
  .put p.channel p.key seq data

def World.exec (w : World) : Op → Option World
  | .serve q =>
    if q.foreign w.producer then some { w with history := w.history.serve q }
    else none
  | .call data =>
    match w.producer.phase with
    | .idle =>
      some { w with producer := { w.producer with
          seq := w.producer.seq + 1
          phase := .putting data } }
    | _ => none
  | .connect =>
    match w.producer.link, w.producer.phase with
    | .down, .putting _ =>
      some { w with producer := { w.producer with
          link := .up
          reconnects := w.producer.reconnects + 1 } }
    | _, _ => none
  | .send =>
    match w.producer.link, w.producer.phase with
    | .up, .putting _ => some { w with producer := { w.producer with link := .asked } }
    | _, _ => none
  | .handle =>
    match w.producer.link, w.producer.phase with
    | .asked, .putting data =>
      let p := w.producer
      let reply := w.history.relay.put p.channel p.key p.seq data
      some { w with
        history := w.history.serve (p.request p.seq data)
        producer := { p with link := .answered (reply.map Prod.fst) } }
    | _, _ => none
  | .fence text =>
    match w.producer.link with
    | .asked => some { w with producer := { w.producer with link := .answered (.error text) } }
    | _ => none
  | .receive =>
    match w.producer.link, w.producer.phase with
    | .answered (.ok reply), .putting data => some (w.answered data reply)
    | .answered (.error _), .putting _ =>
      some { w with producer := { w.producer with phase := .idle, link := .down } }
    | _, _ => none
  | .breakLink =>
    some { w with
      producer := { w.producer with link := .down }
      stale := w.stale ++ w.producer.leftover }
  | .handleStale i =>
    match w.stale[i]? with
    | some (seq, data) =>
      some { w with
        history := w.history.serve (w.producer.request seq data)
        stale := w.stale.eraseIdx i }
    | none => none
  | .dropStale i => some { w with stale := w.stale.eraseIdx i }
  | .giveUp =>
    match w.producer.link, w.producer.phase with
    | .down, .putting _ => some { w with producer := { w.producer with phase := .idle } }
    | _, _ => none
  | .again =>
    match w.producer.phase with
    | .waiting data =>
      some { w with producer := { w.producer with
          seq := w.producer.seq + 1
          phase := .putting data } }
    | _ => none
  | .stop =>
    match w.producer.phase with
    | .waiting _ => some { w with producer := { w.producer with phase := .idle } }
    | _ => none

def runs (cfg : RelayConfig) (epoch channel : Nat) (key : ProducerKey)
    (allowed : World → Op → Bool) : System World :=
  .guarded (.new cfg epoch channel key) allowed World.exec

def anyOp (_ : World) (_ : Op) : Bool := true

end Yeto.SampleRelay
