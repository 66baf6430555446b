/-
One downlink session: a syncer that publishes and re-sends, and a learner.

The network is arbitrary: a frame may be lost, repeated or overtaken; its
bytes arrive in chunks of any length, interleaved with those of others; a
message may end at any point. The session remembers the anchors the syncer
held, the values it sent for want of one, and the decodes that finished.
-/
import Yeto.Lib.System
import Yeto.Downlink.Model

namespace Yeto.Downlink

open Lib

structure Inbound where
  tx : Transaction
  rest : List UInt8
deriving DecidableEq, Repr

structure Log where
  anchored : List (U32 × Anchor)
  /-- What it sent exactly, having no anchor at that version. -/
  exact : List (U32 × U64 × List F32)

/-- A frame of `version` went out, and `anchor` is now that of its
fragment. -/
def Log.note (l : Log) (p : U32) (version : U64) (params : List F32)
    (anchor : Option Anchor) : Log :=
  { anchored := l.anchored ++ anchor.toList.map (p, ·)
    exact :=
      if anchor.any (fun a => a.version == version) then l.exact
      else l.exact ++ [(p, version, params)] }

structure Session where
  syncer : DownlinkAnchors
  sent : List EncodedBcast
  log : Log
  numels : List Nat
  learner : LearnerAnchors
  inbound : SortedMap Nat Inbound
  finished : List DownlinkDecode

inductive Call
  | publish (p : U32) (version : U64) (params : List F32)
  | publishFull (p : U32) (version : U64) (params : List F32)
  | resend (p : U32) (version : U64) (params : List F32)

inductive Receive
  /-- The first chunk of a frame names its fragment and version. -/
  | openMessage (id : Nat) (frame : EncodedBcast)
  | chunk (id length : Nat)
  | finish (id : Nat) (innerOk : Bool)
  | abort (id : Nat)
  | whole (frame : EncodedBcast)

namespace Session

def start (syncer : DownlinkAnchors) (numels : List Nat) : Session :=
  { syncer, sent := [], log := ⟨[], []⟩, numels
    learner := .new numels.length, inbound := .empty, finished := [] }

def record (w : Session) (p : U32) (version : U64) (params : List F32)
    (frame : EncodedBcast) (syncer : DownlinkAnchors) : Session :=
  { w with
    syncer
    sent := w.sent ++ [frame]
    log := w.log.note p version params (syncer.anchor p) }

def call (n : Numerics) (w : Session) : Call → Session
  | .publish p version params =>
    match w.syncer.publish n p version params with
    | .error _ => w
    | .ok (frame, syncer) => w.record p version params frame syncer
  | .publishFull p version params =>
    let (frame, syncer) := w.syncer.publishFull n p version params
    w.record p version params frame syncer
  | .resend p version params =>
    let frame := w.syncer.resend n p version params
    w.record p version params frame w.syncer

/-- The fragment and version at the head of a frame, and the bytes after
them. -/
def opened (n : Numerics) (frame : EncodedBcast) : Nat × Nat × List UInt8 :=
  let payload := frame.payload n
  (ofLe (payload.take 4), ofLe ((payload.drop 4).take 8), payload.drop 12)

def drop (w : Session) (id : Nat) : Session := { w with inbound := w.inbound.erase id }

def adopt (w : Session) (r : DownlinkDecode × LearnerAnchors) : Session :=
  { w with learner := r.2, finished := w.finished ++ [r.1] }

/-- One event at the learner, with the exception it raises. An exception
aborts the message. -/
def receive (n : Numerics) (w : Session) : Receive → Option DownlinkError × Session
  | .openMessage id frame =>
    let (fragmentId, version, rest) := opened n frame
    match w.numels[fragmentId]? with
    | none =>
      (some (.value s!"streamed fragment has unknown fragment {fragmentId}"),
        w)
    | some numel =>
      let tx := Transaction.bindFragment fragmentId version numel
      (none, { w with inbound := w.inbound.insert id ⟨tx, rest⟩ })
  | .chunk id length =>
    match w.inbound.find id with
    | none => (none, w)
    | some m =>
      match m.tx.consumeChunk n w.learner (m.rest.take length) with
      | .error e => (some e, w.drop id)
      | .ok (_, tx) =>
        let next : Inbound := ⟨tx, m.rest.drop length⟩
        (none, { w with inbound := w.inbound.insert id next })
  | .finish id innerOk =>
    match w.inbound.find id with
    | none => (none, w)
    | some m =>
      match m.tx.finishMessage n w.learner innerOk with
      | .error e => (some e, w.drop id)
      | .ok r => (none, (w.drop id).adopt r)
  | .abort id => (none, w.drop id)
  | .whole frame =>
    let (fragmentId, version, rest) := opened n frame
    match w.numels[fragmentId]? with
    | none =>
      (some (.value s!"BCAST_FRAGMENT for unknown fragment {fragmentId}"),
        w)
    | some numel =>
      match w.learner.decodeWhole n fragmentId version rest numel with
      | .error e => (some e, w)
      | .ok r => (none, w.adopt r)

end Session

/-- Only frames of the syncer arrive. -/
def Receive.From (w : Session) : Receive → Prop
  | .openMessage _ frame => frame ∈ w.sent
  | .whole frame => frame ∈ w.sent
  | .chunk .. | .finish .. | .abort _ => True

/-- The runs of a session: a syncer of `fragments` fragments that
refreshes every `fullEvery` broadcasts, and a learner of the layout
`numels`. -/
def sessions (n : Numerics) (fragments fullEvery : Nat) (numels : List Nat) : System Session where
  init w := ∃ s, DownlinkAnchors.new fragments fullEvery = .ok s ∧ w = .start s numels
  step w w' := (∃ c, w' = w.call n c) ∨ ∃ r, r.From w ∧ w' = (w.receive n r).2

end Yeto.Downlink
