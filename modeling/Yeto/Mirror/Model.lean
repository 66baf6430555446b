/-
The mirror of a directory in an object store
(`yeto/rl/engine/object_store.py`: `TreeMirror`), with the processes of one
host that write into the directory.

Keys are ordered as their texts are. A write puts a whole file in place. `push`
and `pull` hold the lock from their first step to their last, and every object
or file they touch is one step, so that the writers (who take no lock) come in
between. No code reads `newest`, the last content a writer gave a pointer, and
`dirty`, what was written since a push returned.
-/
import Yeto.Lib.SortedMap
import Yeto.Lib.System

namespace Yeto.Mirror

open Lib

variable {K C : Type} [LinearOrder K]

/-- What a mirror is made with; `names` is what the content of a pointer
file names. A subtree is the test for its keys. -/
structure TreeMirror (K C : Type) where
  subtrees : List (K → Bool)
  pointers : K → Bool
  records : K → Bool
  size : C → Nat
  names : C → List K

def TreeMirror.uploadRank (T : TreeMirror K C) (rel : K) : Nat :=
  if T.pointers rel then 2 else if T.records rel then 1 else 0

structure File (C : Type) where
  content : C
  mtime : Nat

abbrev Stamp := Nat × Nat

def TreeMirror.stamp (T : TreeMirror K C) (f : File C) : Stamp := (T.size f.content, f.mtime)

/-- A running `push`: its copy of the state, the files its scan saw, and
what is still to be uploaded. -/
structure Push (K : Type) [LinearOrder K] where
  state : SortedMap K Stamp
  seen : List K
  changed : List (K × Stamp)

def Push.gone (p : Push K) : List K := p.state.keys.filter fun k => !p.seen.contains k

inductive Fetch (K C : Type)
  | idle
  | fetched (key : K) (content : C)
  | replaced (key : K)

structure Pull (K C : Type) [LinearOrder K] where
  state : SortedMap K Stamp
  subtrees : List (K → Bool)
  keys : List K
  at_ : Fetch K C

inductive Job (K C : Type) [LinearOrder K]
  | push (p : Push K)
  | pull (p : Pull K C)

structure State (K C : Type) [LinearOrder K] where
  files : SortedMap K (File C)
  pushed : SortedMap K Stamp
  objects : SortedMap K C
  job : Option (Job K C)
  newest : SortedMap K C
  dirty : List K

def State.new : State K C := ⟨.empty, .empty, .empty, none, .empty, []⟩

inductive Op (K C : Type)
  | write (key : K) (content : C) (mtime : Nat)
  | remove (key : K)
  | push
  | pull
  /-- The next step of the push or pull; a file it puts gets this time. -/
  | next (mtime : Nat)
  | tear
  | crash

section Exec

variable (T : TreeMirror K C) (s : State K C)

def State.write (k : K) (c : C) (t : Nat) : State K C :=
  { s with
    files := s.files.insert k ⟨c, t⟩
    newest := if T.pointers k then s.newest.insert k c else s.newest
    dirty := k :: s.dirty }

def State.remove (k : K) : State K C :=
  { s with
    files := s.files.erase k
    newest := s.newest.erase k
    dirty := s.dirty.filter (· ≠ k) }

def State.changed : List (K × Stamp) :=
  (s.files.entries.map fun e => (e.1, T.stamp e.2)).filter fun e =>
    s.pushed.find e.1 ≠ some e.2

/-- `changed.sort(key=lambda rel: (self._upload_rank(rel), rel))` of a list
that is in the order of its keys. -/
def TreeMirror.byRank (l : List (K × Stamp)) : List (K × Stamp) :=
  (l.filter fun e => T.uploadRank e.1 = 0) ++ (l.filter fun e => T.uploadRank e.1 = 1)
    ++ l.filter fun e => T.uploadRank e.1 = 2

def State.startPush : Push K :=
  { state := s.pushed
    seen := s.files.keys
    changed := T.byRank (s.changed T) }

def State.pushNext (p : Push K) : State K C :=
  match p.changed with
  | (rel, stamp) :: rest =>
    match s.files.find rel with
    -- the file is gone since the scan: the upload raises
    | none => { s with job := none }
    | some f =>
      { s with
        objects := s.objects.insert rel f.content
        pushed := p.state.insert rel stamp
        job := some (.push { p with
          state := p.state.insert rel stamp, changed := rest }) }
  | [] =>
    match p.gone with
    | rel :: _ =>
      { s with
        objects := s.objects.erase rel
        job := some (.push { p with state := p.state.erase rel }) }
    | [] => { s with pushed := p.state, job := none, dirty := [] }

def State.pullNext (p : Pull K C) (t : Nat) : State K C :=
  let go (p : Pull K C) : State K C := { s with job := some (.pull p) }
  match p.at_ with
  | .fetched k c =>
    { s with
      files := s.files.insert k ⟨c, t⟩
      job := some (.pull { p with at_ := .replaced k }) }
  | .replaced k =>
    match s.files.find k with
    -- removed since: the stat raises
    | none => { s with job := none }
    | some f => go { p with state := p.state.insert k (T.stamp f), at_ := .idle }
  | .idle =>
    match p.keys with
    | k :: rest =>
      if s.files.contains k && !T.pointers k then go { p with keys := rest }
      else
        match s.objects.find k with
        | none => go { p with keys := rest }
        | some c => go { p with keys := rest, at_ := .fetched k c }
    | [] =>
      match p.subtrees with
      | sub :: rest => go { p with subtrees := rest, keys := s.objects.keys.filter sub }
      | [] => { s with pushed := p.state, job := none }

def State.tear (p : Push K) : Option (State K C) :=
  match p.changed with
  | [] => none
  | (rel, _) :: _ =>
    (s.files.find rel).map fun f =>
      { s with objects := s.objects.insert rel f.content, job := none }

def State.exec : Op K C → Option (State K C)
  | .write k c t => some (s.write T k c t)
  | .remove k => some (s.remove k)
  | .push =>
    if s.job.isNone then some { s with job := some (.push (s.startPush T)) }
    else none
  | .pull =>
    if s.job.isNone then
      some { s with job := some (.pull ⟨s.pushed, T.subtrees, [], .idle⟩) }
    else none
  | .next t =>
    match s.job with
    | none => none
    | some (.push p) => some (s.pushNext p)
    | some (.pull p) => some (s.pullNext T p t)
  | .tear =>
    match s.job with
    | some (.push p) => s.tear p
    | _ => none
  | .crash => some { s with job := none }

def State.free (k : K) : Bool :=
  let apart (p : K) (c : C) : Bool := !(T.pointers p && (T.names c).contains k)
  s.files.entries.all (fun e => apart e.1 e.2.content)
    && s.objects.entries.all (fun e => apart e.1 e.2)

/-- No job is at the key: a push leaves alone what its scan did not list. -/
def State.apart (k : K) : Bool :=
  match s.job with
  | none => true
  | some (.push p) => !T.pointers k && !p.seen.contains k
  | some (.pull _) => false

/-- The writers leave the directory to a pull that runs, and to a push the
pointers and the files it listed; nobody pulls over a pointer that was not
pushed. A pointer is written after what it names, which then stays; a file
is told from the one that was pushed by its stamp. -/
def State.orderly : Op K C → Bool
  | .write k c t =>
    s.apart T k && s.pushed.find k ≠ some (T.size c, t) && if T.pointers k then
          (T.names c).all fun k' => T.pointers k' || s.files.contains k'
        else s.free T k
  | .remove k => s.job.isNone && s.free T k
  | .pull => s.dirty.all fun k => !T.pointers k
  | _ => true

end Exec

def runs (T : TreeMirror K C) : System (State K C) := .guarded .new (fun _ _ => true) (State.exec T)

/-- The interleavings in which the writers keep to `orderly`. -/
def orderlyRuns (T : TreeMirror K C) : System (State K C) :=
  .guarded .new (State.orderly T) (State.exec T)

end Yeto.Mirror
