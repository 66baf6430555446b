/-
The index of a sample buffer, and its appenders and readers
(`yeto/rl/engine/sample_buffer.py`: `JsonlIndex`, `ObjectIndex`,
`_write_record` and `_absorb` of `FileSampleBuffer`;
`yeto/cloud/s3_store.py`: `S3ObjectStore.create`).

On an object store a record is an object, made only where there is none of its
key (`Objects`); in a shared directory the index is a file of lines, written
under a lock and read without one (`File`).

A step is one object read or made, or one `read` or `write` of the file, of
any number of characters. Any step may be the last of its process; an append
may also raise. The answer to a creation need not be the truth (`Answer`): the
client sends a request again whose answer it did not get.

A record is its position and its content, none for the data end; its line is
a parameter (`Lines.Codec`). The source does not keep the calls and the list
of the complete records.
-/
import Yeto.Lib.Appends
import Yeto.Lib.Lines

namespace Yeto.SampleIndex

open Lib

variable {n : Nat} {α : Type}

/-- A record of the index; the data end has no body. -/
structure Rec (α : Type) where
  pos : Nat
  body : Option α
deriving DecidableEq

/-- `len(self._entries)`, when these records are read. -/
def entries (read : List (Rec α)) : Nat := (read.filter fun r => r.body.isSome).length

def ended (read : List (Rec α)) : Bool := read.any fun r => r.body.isNone

def absorb (read : List (Rec α)) : List (Rec α) → Option (List (Rec α))
  | [] => some read
  | r :: records => if r.pos = entries read then absorb (read ++ [r]) records else none

def makeRecord (read : List (Rec α)) (body : Option α) : Option (Rec α) :=
  if ended read then none else some ⟨entries read, body⟩

namespace Objects

def maxCreateRaces : Nat := 1000

inductive Phase
  | reading
  | creating (pos : Nat)
  | created
deriving DecidableEq

/-- An `append` in progress, with the creations it has lost. -/
structure Call (α : Type) where
  id : Nat
  body : Option α
  phase : Phase
  races : Nat

structure Proc (α : Type) where
  read : List (Rec α)
  call : Option (Call α)

def Proc.new : Proc α := ⟨[], none⟩

structure Obj (α : Type) where
  key : Nat
  record : Rec α
  call : Nat

structure State (n : Nat) (α : Type) where
  objects : List (Obj α)
  procs : Fin n → Proc α
  events : List (Appends.Event (Option α))
  calls : Nat

def State.new : State n α := ⟨[], fun _ => .new, [], 0⟩

inductive Answer
  | won
  | lost
  | failed
deriving DecidableEq

inductive Op (n : Nat) (α : Type)
  | start (p : Fin n) (body : Option α)
  | fetch (p : Fin n)
  | make (p : Fin n)
  /-- `made`: the request made the object. -/
  | create (p : Fin n) (made : Bool) (answer : Answer)
  | giveBack (p : Fin n)
  | crash (p : Fin n)

def State.object (s : State n α) (pos : Nat) : Option (Obj α) :=
  s.objects.find? fun o => o.key = pos

def State.set (s : State n α) (p : Fin n) (x : Proc α) : State n α :=
  { s with procs := Function.update s.procs p x }

def State.setCall (s : State n α) (p : Fin n) (call : Option (Call α)) : State n α :=
  s.set p { s.procs p with call := call }

/-- The call after the answer to its creation: a lost one begins again, but
not for ever. -/
def Call.answered (c : Call α) : Answer → Option (Call α)
  | .won => some { c with phase := .created }
  | .lost =>
    if c.races + 1 = maxCreateRaces then none
    else some { c with
      phase := .reading
      races := c.races + 1 }
  | .failed => none

def State.put (s : State n α) (pos : Nat) (c : Call α) : State n α :=
  { s with objects := s.objects ++ [⟨pos, ⟨pos, c.body⟩, c.id⟩] }

/-- One object of `read_new`, and `_absorb`. -/
def State.fetch (s : State n α) (p : Fin n) : Option (State n α) :=
  (s.object (s.procs p).read.length).map fun o =>
    match absorb (s.procs p).read [o.record] with
    | some read => s.set p { s.procs p with read := read }
    | none => s.set p .new

def State.create (s : State n α) (p : Fin n) (c : Call α) (pos : Nat)
    (made : Bool) (answer : Answer) : Option (State n α) :=
  -- A request makes an object only where there is none; `True` is an answer
  -- to one that did.
  if (made = true → s.object pos = none) ∧ (answer = .won → made = true) then
    some ((if made then s.put pos c else s).setCall p (c.answered answer))
  else none

def State.exec (s : State n α) : Op n α → Option (State n α)
  | .start p body =>
    match (s.procs p).call with
    | some _ => none
    | none => some { s.setCall p (some ⟨s.calls, body, .reading, 0⟩) with
        events := .begun s.calls s.objects.length :: s.events
        calls := s.calls + 1 }
  | .fetch p =>
    match (s.procs p).call with
    | some ⟨_, _, .creating _, _⟩ => none
    | _ => s.fetch p
  | .make p =>
    match (s.procs p).call with
    | some ⟨id, body, .reading, races⟩ =>
      some (s.setCall p ((makeRecord (s.procs p).read body).map fun r =>
        ⟨id, body, .creating r.pos, races⟩))
    | _ => none
  | .create p made answer =>
    match (s.procs p).call with
    | some ⟨id, body, .creating pos, races⟩ =>
      s.create p ⟨id, body, .creating pos, races⟩ pos made answer
    | _ => none
  | .giveBack p =>
    match (s.procs p).call with
    | some ⟨id, body, .created, _⟩ => some { s.setCall p none with
        events := .returned id body :: s.events }
    | _ => none
  | .crash p => some (s.set p .new)

/-- The records in the store with their calls. -/
def State.index (s : State n α) : List (Rec α × Nat) := s.objects.map fun o => (o.record, o.call)

end Objects

namespace File

inductive Stage
  | waiting
  | locked
  | scanned
  /-- The file is cut; `left` is still to be written. -/
  | writing (pos : Nat) (left : List Char)
deriving DecidableEq

inductive Doing (α : Type)
  | nothing
  /-- `fh.read()` of a reader without the lock, with what it has so far. -/
  | reading (data : List Char)
  | appending (id : Nat) (body : Option α) (stage : Stage)

structure Proc (α : Type) where
  read : List (Rec α)
  offset : Nat
  doing : Doing α

def Proc.new : Proc α := ⟨[], 0, .nothing⟩

structure State (n : Nat) (α : Type) where
  file : List Char
  lock : Option (Fin n)
  index : List (Rec α × Nat)
  procs : Fin n → Proc α
  events : List (Appends.Event (Option α))
  calls : Nat

def State.new : State n α := ⟨[], none, [], fun _ => .new, [], 0⟩

inductive Op (n : Nat) (α : Type)
  | start (p : Fin n) (body : Option α)
  | acquire (p : Fin n)
  | scan (p : Fin n)
  | cut (p : Fin n)
  | write (p : Fin n) (k : Nat)
  | finish (p : Fin n)
  | fail (p : Fin n)
  | crash (p : Fin n)
  | look (p : Fin n)
  | more (p : Fin n) (k : Nat)
  | done (p : Fin n)

variable (codec : Lines.Codec (Rec α))

/-- `_lines` and `_absorb` of what was read from the offset on, where they
raise nothing. -/
def Proc.take (x : Proc α) (data : List Char) : Option (Proc α) :=
  let lines := (Lines.split data).1
  ((codec.loadAll lines).bind (absorb x.read)).map fun read => { x with
    read := read
    offset := x.offset + (Lines.join lines).length }

def State.set (s : State n α) (p : Fin n) (x : Proc α) : State n α :=
  { s with procs := Function.update s.procs p x }

def State.doing (s : State n α) (p : Fin n) (doing : Doing α) : State n α :=
  s.set p { s.procs p with doing := doing }

def State.unlock (s : State n α) (p : Fin n) : State n α :=
  { s with lock := if s.lock = some p then none else s.lock }

def State.crash (s : State n α) (p : Fin n) : State n α := (s.unlock p).set p .new

/-- `make`, and the truncation of a torn last line. -/
def State.cut (s : State n α) (p : Fin n) (id : Nat) (body : Option α) : State n α :=
  match makeRecord (s.procs p).read body with
  | none => (s.unlock p).doing p .nothing
  | some r => { s.doing p (.appending id body (.writing r.pos (codec.dumps r ++ ['\n']))) with
      file := s.file.take (s.procs p).offset }

/-- The next `k` characters of a record; with its newline it is complete. -/
def State.write (s : State n α) (p : Fin n) (id : Nat) (body : Option α)
    (pos : Nat) (left : List Char) (k : Nat) : State n α :=
  { s.doing p (.appending id body (.writing pos (left.drop k))) with
    file := s.file ++ left.take k
    index := if left.drop k = [] then s.index ++ [(⟨pos, body⟩, id)]
      else s.index }

def State.exec (s : State n α) : Op n α → Option (State n α)
  | .start p body =>
    match (s.procs p).doing with
    | .nothing => some { s.doing p (.appending s.calls body .waiting) with
        events := .begun s.calls s.index.length :: s.events
        calls := s.calls + 1 }
    | _ => none
  | .acquire p =>
    match (s.procs p).doing with
    | .appending id body .waiting =>
      if s.lock = none then
        some { s.doing p (.appending id body .locked) with lock := some p }
      else none
    | _ => none
  | .scan p =>
    match (s.procs p).doing with
    | .appending id body .locked =>
      match (s.procs p).take codec (s.file.drop (s.procs p).offset) with
      | some x => some (s.set p { x with doing := .appending id body .scanned })
      | none => some (s.crash p)
    | _ => none
  | .cut p =>
    match (s.procs p).doing with
    | .appending id body .scanned => some (s.cut codec p id body)
    | _ => none
  | .write p k =>
    match (s.procs p).doing with
    | .appending id body (.writing pos (c :: left)) => some (s.write p id body pos (c :: left) k)
    | _ => none
  | .finish p =>
    match (s.procs p).doing with
    | .appending id body (.writing _ []) =>
      match (s.procs p).take codec (s.file.drop (s.procs p).offset) with
      | some x => some { (s.unlock p).set p { x with doing := .nothing } with
          events := .returned id body :: s.events }
      | none => some (s.crash p)
    | _ => none
  | .fail p =>
    match (s.procs p).doing with
    | .appending _ _ _ => some ((s.unlock p).doing p .nothing)
    | _ => none
  | .crash p => some (s.crash p)
  | .look p =>
    match (s.procs p).doing with
    | .nothing => some (s.doing p (.reading []))
    | _ => none
  | .more p k =>
    match (s.procs p).doing with
    | .reading data => some (s.doing p (.reading (data
        ++ (s.file.drop ((s.procs p).offset + data.length)).take k)))
    | _ => none
  | .done p =>
    match (s.procs p).doing with
    | .reading data =>
      if s.file.length ≤ (s.procs p).offset + data.length then
        match (s.procs p).take codec data with
        | some x => some (s.set p { x with doing := .nothing })
        | none => some (s.crash p)
      else none
    | _ => none

end File

end Yeto.SampleIndex
