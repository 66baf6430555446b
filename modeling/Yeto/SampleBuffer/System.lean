/-
The writers of a sample buffer: samplers, which write groups, and the relay
pump share it. `Written` is the history of payload writes.
-/
import Yeto.SampleRelay.Pump

namespace Yeto.SampleBuffer

open Lib SampleRelay

structure Written where
  id : SampleId
  data : Bytes
deriving Repr, DecidableEq

structure Files where
  buffer : Buffer
  pump : RelayPump
  written : List Written

def Files.new : Files := ⟨.empty, .new .empty, []⟩

inductive FileOp
  | group (id : SampleId) (data : Bytes) (version tokens : Nat) (fault : Fault)
  | item (item : Item) (fault : Fault)
  | restart
  | markDataEnd

def itemId (codec : Codec) (item : Item) : Option SampleId :=
  match codec.decode item.payload with
  | .ok (header, _) => header.sampleId
  | _ => none

def newPayload (b b' : Buffer) (id : SampleId) : List Written :=
  match b.payloads (payloadName id), b'.payloads (payloadName id) with
  | none, some data => [⟨id, data⟩]
  | _, _ => []

def Files.exec (codec : Codec) (f : Files) : FileOp → Option Files
  | .group id data version tokens fault =>
    let b := groupWrite f.buffer id data version tokens fault
    some { f with
      buffer := b
      written := f.written ++ newPayload f.buffer b id }
  | .item item fault =>
    let out := f.pump.settle codec f.buffer item fault
    some
      { buffer := out.buffer
        pump := out.pump
        written := f.written ++ match itemId codec item with
          | some id => newPayload f.buffer out.buffer id
          | none => [] }
  | .restart => some { f with pump := .new f.buffer }
  | .markDataEnd => some { f with buffer := { f.buffer with ended := true } }

def fileRuns (codec : Codec) (allowed : Files → FileOp → Bool) : System Files :=
  .guarded .new allowed (Files.exec codec)

/-- A payload under the name of the item was written for the item's id. -/
def ownPayload (codec : Codec) (f : Files) : FileOp → Bool
  | .item item _ =>
    match itemId codec item with
    | some id => f.written.all fun w =>
      decide (payloadName w.id = payloadName id → w.id = id)
    | none => true
  | _ => true

end Yeto.SampleBuffer
