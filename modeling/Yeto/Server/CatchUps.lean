/-
Who still owes a learner its fragments (`syncer/src/server.rs`): the
inline catch-ups the scheduler sends one fragment per pass (`CatchUps`),
and the background resends a forwarder task sends (`BulkResends`).

Both keep a TAIL: what the scheduler does for the learner once its
fragments are on their way. A learner with a tail joins no new round.
`registry.resends` of the source is the same set of forwarders, and is not
kept twice.
-/
import Yeto.Lib.Trace
import Yeto.Server.Resend

namespace Yeto.Server

open Lib Downlink

structure CatchUpTail where
  rejoin : Bool
  /-- Disconnect path: move the unanswered slots of the captured
  generation to the replacement. -/
  rebind : Bool
deriving DecidableEq, Repr

def CatchUpTail.REJOIN : CatchUpTail := ⟨true, false⟩

def CatchUpTail.REBIND : CatchUpTail := ⟨false, true⟩

def CatchUpTail.or (a b : CatchUpTail) : CatchUpTail := ⟨a.rejoin || b.rejoin, a.rebind || b.rebind⟩

structure CatchUp where
  group : Group
  remaining : List Nat
  tail : CatchUpTail
deriving DecidableEq, Repr

def CatchUp.member (c : CatchUp) : Member := c.group.member

inductive CatchUpStep
  | send (group : Group) (p : Nat)
  /-- Every fragment went out, or the stream failed; run the tail. -/
  | done (catchUp : CatchUp)
deriving DecidableEq, Repr

abbrev CatchUps := List CatchUp

namespace CatchUps

def holds (q : CatchUps) (member : Member) : Bool := q.any fun c => decide (c.member = member)

/-- A second request for the same generation only adds its tail. -/
def enqueue (q : CatchUps) (group : Group) (fragments : List Nat) (tail : CatchUpTail) : CatchUps :=
  ((updateFirst (fun c => decide (c.member = group.member))
      (fun c => ((), { c with tail := c.tail.or tail })) q).map
    Prod.snd).getD (q ++ [⟨group, fragments, tail⟩])

/-- Stop sending to `member`; the tail still runs. -/
def abandon (q : CatchUps) (member : Member) : CatchUps :=
  ((updateFirst (fun c => decide (c.member = member))
      (fun c => ((), { c with remaining := [] })) q).map Prod.snd).getD q

def nextStep (q : CatchUps) : Option (CatchUpStep × CatchUps) :=
  match q with
  | [] => none
  | c :: rest =>
    match c.remaining with
    | p :: remaining => some (.send c.group p, rest ++ [{ c with remaining }])
    | [] => some (.done c, rest)

end CatchUps

inductive ResendTail
  | catchUp (tail : CatchUpTail)
  /-- Recovery replay: promote, record and RECOVERY_DONE. -/
  | recovery (replayed : Nat)
deriving DecidableEq, Repr

structure BulkResend where
  conn : ResendConn
  tail : Option ResendTail
deriving DecidableEq

def BulkResend.group (e : BulkResend) : Group := e.conn.group

def BulkResend.member (e : BulkResend) : Member := e.conn.group.member

inductive DueTail
  | catchUp (group : Group) (tail : CatchUpTail) (floor : List Nat)
  | recovery (group : Group) (replayed : Nat)
deriving DecidableEq, Repr

abbrev BulkResends := List BulkResend

namespace BulkResends

def has (es : BulkResends) (member : Member) : Bool := es.any fun e => decide (e.member = member)

def holds (es : BulkResends) (member : Member) : Bool :=
  es.any fun e => decide (e.member = member) && e.tail.isSome

def startAgain (st : GlobalState) (fragments : List Nat) (tail : ResendTail)
    (e : BulkResend) : BulkResend :=
  match tail with
  | .recovery _ => e
  | .catchUp more =>
    match e.tail with
    | some (.recovery _) => e
    | some (.catchUp existing) =>
      { conn := e.conn.owe st fragments
        tail := some (.catchUp (existing.or more)) }
    | none => { conn := e.conn.owe st fragments, tail := some tail }

/-- Offer the current value of every fragment to a forwarder of `group`;
those versions are its targets. -/
def start (es : BulkResends) (st : GlobalState) (group : Group)
    (fragments : List Nat) (tail : ResendTail) : BulkResends :=
  ((updateFirst (fun e => decide (e.member = group.member))
      (fun e => ((), startAgain st fragments tail e)) es).map Prod.snd).getD
    (es ++ [⟨(ResendConn.new st group).owe st fragments, some tail⟩])

/-- The forwarder of a learner whose queues cannot take a broadcast now. -/
def spill (st : GlobalState) (p : Nat) (full : Option EncodedBcast) (group : Group) : BulkResend :=
  { conn := (ResendConn.new st group).offerPublished p (st.version p) (st.values p) full
    tail := none }

/-- The forwarder of a learner whose queues cannot take its initial cut
now. -/
def spillInitial (st : GlobalState) (frame : ExactFrame) (group : Group) : BulkResend :=
  ⟨(ResendConn.new st group).queueExact frame, none⟩

/-- Whether a resend belongs to a generation that is still there: before
its tail a recovery replay belongs to the recovering generation,
otherwise a resend belongs to the current one. -/
def kept (reg : RegistryState) (e : BulkResend) : Bool :=
  match e.tail with
  | some (.recovery _) => reg.isRecovering e.member
  | _ => reg.isCurrentMember e.member

/-- The tail of an entry, where it is due. -/
def due (st : GlobalState) (e : BulkResend) : Option DueTail :=
  match e.tail with
  | none => none
  | some tail =>
    if e.conn.caughtUp then
      match tail with
      | .catchUp tail => some (.catchUp e.group tail (e.conn.handedOver st.versions))
      | .recovery replayed => some (.recovery e.group replayed)
    else none

/-- The entry once its due tail was taken. RECOVERY_DONE names the current
versions, so the pending ones become targets. -/
def taken (e : BulkResend) : BulkResend :=
  match e.tail with
  | none => e
  | some tail =>
    if e.conn.caughtUp then
      match tail with
      | .catchUp _ => { e with tail := none }
      | .recovery _ => { conn := e.conn.owePending, tail := none }
    else e

/-- Whether an entry stays: its tail is owed, its forwarder has something
to send, or the learner's queues are still full. -/
def stays (settled : Group → Bool) (e : BulkResend) : Bool :=
  e.tail.isSome || !e.conn.drained || (!e.conn.ended && !settled e.group)

/-- Take the tails whose targets are handed over, oldest resend first, and
remove the resends with nothing left. `settled` is which writer queues
could take the largest broadcast. -/
def takeDue (es : BulkResends) (st : GlobalState) (settled : Group → Bool) :
    List DueTail × BulkResends := (es.filterMap (due st), (es.map taken).filter (stays settled))

end BulkResends

end Yeto.Server
