/-
The ledger of the batches that a driver trains (`yeto/rl/engine/ledger.py`:
`BatchLedger`) over its journal (`yeto/rl/engine/journal.py`).

A call looks at the ledger, then appends its records one by one, and each is
replayed as it is when the journal is read back. A crash cuts the journal
after any character of the record being written. What the ledger keeps and
never looks at is of a type `D`.
-/
import Yeto.Lib.Lines
import Yeto.Lib.SortedMap
import Yeto.Lib.System

namespace Yeto.Batches

open Lib

variable {G D : Type} [LinearOrder G]

inductive BatchState
  | prepared | optimizerApplied | outerRecorded | discarded | superseded
  deriving DecidableEq, Repr

/-- The optimizer step of the batch is part of the learner. -/
def BatchState.trained : BatchState → Bool
  | .optimizerApplied | .outerRecorded => true
  | _ => false

structure Batch (G D : Type) where
  attempt : Nat
  groupIds : List G
  data : D
  state : BatchState
  filtered : Option D := none

/-- The records of the kinds that a replay looks at; `state` is the four
kinds that are the name of the state they bring a batch into. -/
inductive Record (G D : Type)
  | prepared (rid : Int) (attempt : Nat) (groupIds : List G) (data : D)
  | state (rid : Int) (kind : BatchState)
  | filtered (rid : Int) (detail : D) (groupIds : List G)
  | engineDiscarded (rid : Int) (groups : Nat)
  | carriedOverReport (rid : Int) (report : D)
  | carriedOver (rid : Int) (groupIds : List G) (policyToken : D)

structure Ledger (G D : Type) [LinearOrder G] where
  batches : SortedMap Int (Batch G D) := .empty
  consumedGroups : SortedMap G Int := .empty
  carried : SortedMap G (Int × D) := .empty
  lastReport : Option D := none
  engineDiscarded : SortedMap Int Nat := .empty

def eraseAll {α : Type} (m : SortedMap G α) (ids : List G) : SortedMap G α :=
  ids.foldl (fun m g => m.erase g) m

def insertAll {α : Type} (m : SortedMap G α) (ids : List G) (v : α) : SortedMap G α :=
  ids.foldl (fun m g => m.insert g v) m

/-- The batch of `rid`, which is `b`, comes into the state `kind`. -/
def Ledger.setState (l : Ledger G D) (rid : Int) (kind : BatchState) (b : Batch G D) : Ledger G D :=
  { l with
    batches := l.batches.insert rid { b with state := kind },
    consumedGroups := match kind with
      | .superseded => eraseAll l.consumedGroups b.groupIds
      | .optimizerApplied => insertAll l.consumedGroups b.groupIds rid
      | _ => l.consumedGroups }

/-- `_replay`; `none` is the `KeyError` of a state for no batch. -/
def Ledger.replay (l : Ledger G D) : Record G D → Option (Ledger G D)
  | .prepared rid attempt ids data => some { l with
      batches := l.batches.insert rid ⟨attempt, ids, data, .prepared, none⟩,
      carried := eraseAll l.carried ids }
  | .state rid kind => (l.batches.find rid).map (l.setState rid kind)
  | .filtered rid detail ids => some { l with
      batches := l.batches.update rid ({ · with filtered := some detail }),
      carried := eraseAll l.carried ids }
  | .engineDiscarded rid groups => some { l with
      engineDiscarded := l.engineDiscarded.insert rid groups }
  | .carriedOverReport _ report => some { l with lastReport := some report }
  | .carriedOver rid ids token => some { l with
      carried := insertAll l.carried ids (rid, token) }

def Ledger.replayAll (l : Ledger G D) (records : List (Record G D)) : Option (Ledger G D) :=
  records.foldlM Ledger.replay l

inductive LedgerError (G : Type)
  | alreadyTrained (rid : Int) (twice : List G)
  | alreadyIs (rid : Int) (state : BatchState)
  | neverPrepared (rid : Int)
  | notAllowed (rid : Int) (state target : BatchState)
  | behindRecorded (start : Int) (recorded : List Int)
  | notCarried (unknown : List G)

/-- What `prepare` reads of a batch; `detail` is what was filtered of it, if
anything was. -/
structure Handle (G D : Type) where
  rolloutId : Int
  groupIds : List G
  data : D
  detail : Option D
  abortedInFlightGroups : Nat
  report : D

def Ledger.prepare (l : Ledger G D) (batch : Handle G D) :
    Except (LedgerError G) (List (Record G D)) :=
  let rid := batch.rolloutId
  let twice := batch.groupIds.filter l.consumedGroups.contains
  if twice ≠ [] then .error (.alreadyTrained rid (twice.mergeSort (· ≤ ·)))
  else
    let records (attempt : Nat) : List (Record G D) :=
      .prepared rid attempt batch.groupIds batch.data
        :: (batch.detail.toList.map fun detail => .filtered rid detail [])
        ++ (if batch.abortedInFlightGroups = 0 then []
          else [.engineDiscarded rid batch.abortedInFlightGroups])
        ++ [.carriedOverReport rid batch.report]
    match l.batches.find rid with
    | none => .ok (records 0)
    | some previous =>
      if previous.state.trained then
        .error (.alreadyIs rid previous.state)
      else .ok (records (previous.attempt + 1))

/-- The place of a state in `order`. -/
def BatchState.order : BatchState → Option Nat
  | .prepared => some 0
  | .optimizerApplied => some 1
  | .outerRecorded => some 2
  | _ => none

/-- `_advance` to one of the states of `order`. -/
def Ledger.advance (l : Ledger G D) (rid : Int) (target : BatchState) :
    Except (LedgerError G) (List (Record G D)) :=
  match l.batches.find rid with
  | none => .error (.neverPrepared rid)
  | some batch =>
    if batch.state = target then .ok []
    else if batch.state.order = none ∨ batch.state.order.map (· + 1) ≠ target.order then
      .error (.notAllowed rid batch.state target)
    else .ok [.state rid target]

def Ledger.discard (l : Ledger G D) (rid : Int) : List (Record G D) :=
  match l.batches.find rid with
  | none => []
  | some batch => if batch.state = .prepared then [.state rid .discarded] else []

/-- What `rebase` records of one batch: ahead of the restart point an applied
update is gone, and below it, it is part of what the restart is from. -/
def rebased (start rid : Int) (state : BatchState) : Option BatchState :=
  match state with
  | .optimizerApplied => some (if start ≤ rid then .superseded else .outerRecorded)
  | .prepared => if start ≤ rid then some .discarded else none
  | _ => none

def Ledger.rebase (l : Ledger G D) (start : Int) : Except (LedgerError G) (List (Record G D)) :=
  let ahead := l.batches.entries.filter (decide <| start ≤ ·.1)
  let below := l.batches.entries.filter (decide <| ·.1 < start)
  let recorded := ahead.filter (decide <| ·.2.state = .outerRecorded)
  if recorded ≠ [] then .error (.behindRecorded start (recorded.map Prod.fst))
  else .ok ((ahead ++ below).filterMap fun e =>
    (rebased start e.1 e.2.state).map (.state e.1))

def Ledger.filterCarried (l : Ledger G D) (ids : List G) (detail : D) :
    Except (LedgerError G) (List (Record G D)) :=
  let unknown := ids.filter (!l.carried.contains ·)
  if unknown ≠ [] then .error (.notCarried (unknown.mergeSort (· ≤ ·)))
  else .ok [.filtered (-1) detail (ids.mergeSort (· ≤ ·))]

inductive Call (G D : Type)
  | prepare (batch : Handle G D)
  | optimizerApplied (rid : Int)
  | outerRecorded (rid : Int)
  | discard (rid : Int)
  | rebase (start : Int)
  | carriedOver (rid : Int) (groupIds : List G) (policyToken : D)
  | filterCarried (groupIds : List G) (detail : D)

def Ledger.records (l : Ledger G D) : Call G D → Except (LedgerError G) (List (Record G D))
  | .prepare batch => l.prepare batch
  | .optimizerApplied rid => l.advance rid .optimizerApplied
  | .outerRecorded rid => l.advance rid .outerRecorded
  | .discard rid => .ok (l.discard rid)
  | .rebase start => l.rebase start
  | .carriedOver rid ids token => .ok [.carriedOver rid (ids.mergeSort (· ≤ ·)) token]
  | .filterCarried ids detail => l.filterCarried ids detail

variable (codec : Lines.Codec (Record G D))

/-- `_parse_lines`: the records of the complete lines and how far they go;
`none` is `JournalCorrupt`. -/
def parseLines (data : List Char) : Option (List (Record G D) × Nat) :=
  (codec.loadAll (Lines.split data).1).map fun records =>
    (records, (Lines.join (Lines.split data).1).length)

/-- `live` is the ledger of the process, if one runs, and `todo` what its
call has still to append. -/
structure State (G D : Type) [LinearOrder G] where
  file : List Char := []
  live : Option (Ledger G D) := some {}
  todo : List (Record G D) := []

def State.rebuilt (s : State G D) : Option (Ledger G D) :=
  (parseLines codec s.file).bind fun p => Ledger.replayAll {} p.1

def State.batch (s : State G D) (rid : Int) : Option (Batch G D) :=
  (s.rebuilt codec).bind (·.batches.find rid)

/-- `crash` comes when `written` characters of the record are in the file. -/
inductive Op (G D : Type)
  | call (c : Call G D)
  | append
  | crash (written : Nat)
  | reopen

def State.exec (s : State G D) : Op G D → Option (State G D)
  | .call c => match s.live, s.todo with
      | some l, [] => match l.records c with
          | .ok records => some { s with todo := records }
          | .error _ => some s
      | _, _ => none
  | .append => match s.live, s.todo with
      | some l, r :: rest => (l.replay r).map fun l' =>
        ⟨s.file ++ codec.text [r], some l', rest⟩
      | _, _ => none
  | .crash written => match s.live with
      | some _ => some ⟨s.file ++ (codec.text (s.todo.take 1)).take written, none, []⟩
      | none => none
  | .reopen => match s.live, parseLines codec s.file with
      | none, some (_, valid) => (s.rebuilt codec).map fun l =>
        ⟨s.file.take valid, some l, []⟩
      | _, _ => none

/-- A batch is applied only while none of its groups is in another batch that
was. Nothing in the ledger asks for it. -/
def State.untrained (s : State G D) : Op G D → Bool
  | .call (.optimizerApplied rid) =>
    match s.live.bind fun l => (l.batches.find rid).map fun b => (l, b) with
    | some (l, b) => decide (b.state = .prepared → ∀ g ∈ b.groupIds, l.consumedGroups.find g = none)
    | none => true
  | _ => true

def runs : System (State G D) := .guarded {} (fun _ _ => true) (State.exec codec)

def untrainedRuns : System (State G D) := .guarded {} State.untrained (State.exec codec)

end Yeto.Batches
