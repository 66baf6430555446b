/-
Payloads and the entries that name them (`rl/engine/sample_buffer.py`,
`rl/engine/buffer_payload.py`).

The name of a payload is the sample id with every character outside
`[A-Za-z0-9._-]` replaced by an underscore. It is written before its index
entry and never overwritten. An operation of the buffer can fail with nothing
done, or after it has taken effect (`Fault`). A reference is the name under
`payloads/`.
-/
import Mathlib.Data.List.Basic

namespace Yeto.SampleBuffer

abbrev SampleId := List Char

abbrev Ref := List Char

abbrev Bytes := List UInt8

def safeChar (c : Char) : Bool := c.isAlphanum || c == '.' || c == '_' || c == '-'

def payloadName (id : SampleId) : Ref :=
  id.map (fun c => if safeChar c then c else '_') ++ ['.', 'b', 'i', 'n']

structure Entry where
  sampleId : SampleId
  behaviorVersion : Nat
  payloadRef : Ref
  tokens : Nat
deriving Repr, DecidableEq

structure Buffer where
  payloads : Ref → Option Bytes
  entries : List Entry
  ended : Bool

/-- What can go wrong in the middle of a payload write and an append. -/
inductive Fault
  | none
  | write
  | written
  | append
  | appended
deriving Repr, DecidableEq

namespace Buffer

def empty : Buffer := ⟨fun _ => none, [], false⟩

def hasPayload (b : Buffer) (ref : Ref) : Bool := (b.payloads ref).isSome

def ids (b : Buffer) : List SampleId := b.entries.map Entry.sampleId

def takenText (name : Ref) : String :=
  let name := String.ofList name
  s!"payload {name} is already in the sample buffer; "
    ++ "a payload is never overwritten"

def writePayload (b : Buffer) (id : SampleId) (data : Bytes) : Except String (Ref × Buffer) :=
  let name := payloadName id
  if b.hasPayload name then .error (takenText name)
  else .ok (name, { b with payloads := Function.update b.payloads name (some data) })

def missingText (entry : Entry) : String :=
  let id := String.ofList entry.sampleId
  let ref := String.ofList entry.payloadRef
  s!"sample {id}: payload {ref} is missing"

def append (b : Buffer) (entry : Entry) : Except String Buffer :=
  if entry.payloadRef ≠ [] ∧ ¬ b.hasPayload entry.payloadRef then .error (missingText entry)
  else if b.ended then .error "append after the data end"
  else .ok { b with entries := b.entries ++ [entry] }

/-- `append` with what can go wrong in it: the buffer after, and whether
the writer knows that its entry is in. -/
def appendWith (b : Buffer) (entry : Entry) (fault : Fault) : Buffer × Bool :=
  match b.append entry with
  | .error _ => (b, false)
  | .ok b' =>
    match fault with
    | .append => (b, false)
    | .appended => (b', false)
    | _ => (b', true)

theorem appendWith_cases (b : Buffer) (entry : Entry) (fault : Fault) :
    ((b.appendWith entry fault).1 = b ∧ (b.appendWith entry fault).2 = false)
      ∨ (b.appendWith entry fault).1 = { b with entries := b.entries ++ [entry] } := by
  unfold appendWith append
  split
  · exact .inl ⟨rfl, rfl⟩
  next b' h =>
  split at h
  · cases h
  · split at h <;> cases h
    split
    · exact .inl ⟨rfl, rfl⟩
    · exact .inr rfl
    · exact .inr rfl

end Buffer

/-- `GroupWriter.write`: payload first, then the entry. A taken name raises
before anything is written. -/
def groupWrite (b : Buffer) (id : SampleId) (data : Bytes)
    (version tokens : Nat) (fault : Fault) : Buffer :=
  match b.writePayload id data, fault with
  | .error _, _ => b
  | .ok _, .write => b
  | .ok (_, b'), .written => b'
  | .ok (ref, b'), _ => (b'.appendWith ⟨id, version, ref, tokens⟩ fault).1

end Yeto.SampleBuffer
