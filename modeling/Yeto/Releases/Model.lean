/-
Staged policy releases (`rl/engine/policy_release.py`).

A release is a directory `r<seq>-v<version>` with the weight files, then the
record in it and a copy of the record as LATEST; it is full, or a delta against
an earlier one. The newest `keep` directories stay, and the bases they need.

`PolicyReleaseStore` is one process's view. For a delta it did not write it
asks the record in the store (`recordedBase`), at a path where none is.
`DeltaChain` picks the base of the next delta.

One writer. Whether a delta comes of the files on the trainer's disk
(`Call.fits`) is an input. A call can raise at every point where it touches the
store (`Stage`), and a process can be replaced after that.
-/
import Yeto.Lib.Closure
import Yeto.Lib.SortedMap
import Yeto.Lib.System
import Mathlib.Data.Prod.Lex
import Mathlib.Data.Char

namespace Yeto.Releases

open Lib

structure Name where
  seq : Nat
  version : Nat
deriving Repr, DecidableEq

/-- Directories are listed by number, then by the text of the name. -/
def Name.key (n : Name) : Nat ×ₗ (List Char ×ₗ Nat) :=
  toLex (n.seq, toLex (Nat.toDigits 10 n.version, n.version))

theorem Name.key_injective : Function.Injective Name.key := by
  intro a b h
  have h := toLex.injective h
  have hseq : a.seq = b.seq := congrArg Prod.fst h
  have hver : a.version = b.version := congrArg Prod.snd (toLex.injective (congrArg Prod.snd h))
  cases a
  cases b
  cases hseq
  cases hver
  rfl

instance : LinearOrder Name := LinearOrder.lift' Name.key Name.key_injective

inductive Weights
  | full
  | lora
deriving Repr, DecidableEq

structure Delta where
  baseSeq : Nat
  basePath : Name
  baseVersion : Nat
deriving Repr, DecidableEq

structure PolicyRelease where
  seq : Nat
  version : Nat
  policyHash : Nat
  path : Name
  weights : Weights
  delta : Option Delta
deriving Repr, DecidableEq

structure Directory where
  whole : Bool
  record : Option PolicyRelease
deriving Repr, DecidableEq

structure Store where
  directories : SortedMap Name Directory
  latest : Option PolicyRelease

inductive Path
  | name (n : Name)
  /-- `<release_dir>/<path>`, below the root once more. -/
  | releaseDir (path : Path)

/-- `_record_at`. The root has release directories in it and no directory
named like itself. -/
def Store.recordAt (s : Store) : Path → Option PolicyRelease
  | .name n => (s.directories.find n).bind Directory.record
  | .releaseDir _ => none

def Store.baseOf (s : Store) (n : Name) : Option Name :=
  (s.recordAt (.name n)).bind fun r => r.delta.map Delta.basePath

def Store.listedNames (s : Store) : List Name := s.directories.keys

structure DeltaChain where
  fullEvery : Nat
  last : Option PolicyRelease
  sinceFull : Nat

def DeltaChain.new (fullEvery : Nat) : DeltaChain := ⟨fullEvery, none, 0⟩

/-- The base of the next release; `none`: the next release is full. -/
def DeltaChain.base (c : DeltaChain) : Option PolicyRelease :=
  if c.fullEvery ≤ c.sinceFull + 1 then none else c.last

def DeltaChain.adopt (c : DeltaChain) (release : PolicyRelease) : DeltaChain :=
  { c with last := some release, sinceFull := 0 }

def DeltaChain.advance (c : DeltaChain) : Option PolicyRelease → DeltaChain
  | none => c
  | some release =>
    { c with
      last := some release
      sinceFull := if release.delta.isNone then 0 else c.sinceFull + 1 }

structure Config where
  keep : Nat
  keep_pos : 1 ≤ keep
  cachedLatest : Bool
  objects : Bool
  putsBypassMount : Bool

structure Process where
  bases : Name → Option Name
  names : Option (List Name)
  written : Option PolicyRelease

def Process.new : Process := ⟨fun _ => none, none, none⟩

def Process.latestForRelease (cfg : Config) (p : Process) (s : Store) : Option PolicyRelease :=
  match p.written with
  | none => s.latest
  | some known =>
    if !cfg.cachedLatest || cfg.objects then s.latest
    else if cfg.putsBypassMount then some known
    else
      match s.latest with
      | none => s.latest
      | some seen =>
        if seen.seq = known.seq ∧ seen.path = known.path
          ∧ seen.policyHash = known.policyHash then some known
        else s.latest

/-- `_recorded_base`: the base in the record of a stored release; none when
the record cannot be read. -/
def recordedBase (s : Store) (n : Name) : Option Name :=
  (s.recordAt (.releaseDir (.name n))).bind fun r => r.delta.map Delta.basePath

def Process.baseOf (p : Process) (s : Store) (n : Name) : Option Name :=
  (p.bases n).orElse fun _ => recordedBase s n

def Process.keptNames (cfg : Config) (p : Process) (s : Store) (names : List Name) : List Name :=
  let newest := names.rtake cfg.keep
  closeOver (p.baseOf s) (weight Name.seq newest) newest newest

def Process.remember (p : Process) (s : Store) (kept : List Name) : Process :=
  { p with
    bases := fun n => if n ∈ kept then p.baseOf s n else p.bases n }

/-- Remove directories from the store, and forget their bases. -/
def removeTrees (old : List Name) (p : Process) (s : Store) : Process × Store :=
  ({ p with bases := fun n => if n ∈ old then none else p.bases n },
    { s with directories := s.directories.filter fun n _ => decide (n ∉ old) })

structure Call where
  version : Nat
  policyHash : Nat
  weights : Weights
  /-- The files of the base are still there and the delta is small enough. -/
  fits : Bool
deriving Repr, DecidableEq

inductive Stage
  /-- The upload fails; it leaves nothing under the name, or a directory
  with all or a part of the files. -/
  | upload (left : Option Bool)
  /-- The put of record and LATEST fails after this many of the two. -/
  | put (files : Nat)
  | prune (removed : Nat)
deriving Repr, DecidableEq

def nextName (latest : Option PolicyRelease) (version : Nat) : Name :=
  ⟨(latest.map PolicyRelease.seq).getD 0 + 1, version⟩

/-- The delta of a call against the base it is offered (`_stage_delta`). -/
def Call.delta (c : Call) (base : Option PolicyRelease) : Option Delta :=
  if c.weights = .full ∧ c.fits = true then
    base.map fun b => ⟨b.seq, b.path, b.version⟩
  else none

def Call.record (c : Call) (name : Name) (base : Option PolicyRelease) : PolicyRelease :=
  ⟨name.seq, c.version, c.policyHash, name, c.weights, c.delta base⟩

/-- LATEST is this version and hash already. -/
def Call.current (c : Call) : Option PolicyRelease → Bool
  | none => false
  | some r => decide (r.version = c.version ∧ r.policyHash = c.policyHash)

def Store.putDirectory (s : Store) (n : Name) : Store :=
  { s with directories := s.directories.insert n ⟨true, none⟩ }

def Store.putFiles (s : Store) (r : PolicyRelease) (files : Nat) : Store :=
  { directories := if 1 ≤ files
      then s.directories.insert r.path ⟨true, some r⟩ else s.directories
    latest := if 2 ≤ files then some r else s.latest }

def Store.leave (s : Store) (n : Name) : Option Bool → Store
  | none => { s with directories := s.directories.erase n }
  | some whole => { s with directories := s.directories.insert n ⟨whole, none⟩ }

def Process.commit (p : Process) (names : List Name) (r : PolicyRelease) : Process :=
  { p with
    names := some (names.filter (fun n => decide (n ≠ r.path)) ++ [r.path])
    bases := match r.delta with
      | none => p.bases
      | some d => fun n => if n = r.path then some d.basePath else p.bases n }

def Process.pruned (cfg : Config) (p : Process) (s : Store) (names : List Name) : List Name :=
  names.filter fun n => decide (n ∉ p.keptNames cfg s names)

inductive Answer
  | raised
  | released (r : Option PolicyRelease)
deriving Repr, DecidableEq

def Process.releaseStaged (cfg : Config) (p : Process) (s : Store) (c : Call)
    (base : Option PolicyRelease) (stop : Option Stage) : Process × Store × Answer :=
  let latest := p.latestForRelease cfg s
  if c.current latest then ({ p with written := latest }, s, .released none)
  else
    let names := p.names.getD s.listedNames
    let started := { p with written := none, names := some names }
    let name := nextName latest c.version
    let record := c.record name base
    let uploaded := s.putDirectory name
    match stop with
    | some (.upload left) => (started, s.leave name left, .raised)
    | some (.put files) => (started, uploaded.putFiles record files, .raised)
    | some (.prune removed) =>
      let named := started.commit names record
      let stored := uploaded.putFiles record 2
      let all := named.names.getD []
      let kept := named.keptNames cfg stored all
      let after := removeTrees ((named.pruned cfg stored all).take removed)
        (named.remember stored kept) stored
      (after.1, after.2, .raised)
    | none =>
      let named := started.commit names record
      let stored := uploaded.putFiles record 2
      let all := named.names.getD []
      let kept := named.keptNames cfg stored all
      let after := removeTrees (named.pruned cfg stored all) (named.remember stored kept) stored
      ({ after.1 with
          names := some (all.filter fun n => decide (n ∈ kept))
          written := some record }, after.2, .released (some record))

structure World where
  store : Store
  process : Process
  chain : Option DeltaChain
  released : List PolicyRelease
  /-- A call of this process raised with LATEST already replaced. -/
  late : Bool
  /-- The prune of the release that LATEST names ran to its end. -/
  tidy : Bool

def World.new : World := ⟨⟨.empty, none⟩, .new, none, [], false, true⟩

inductive Op
  | release (c : Call) (stop : Option Stage)
  /-- A fresh process on the same store. `fullEvery`: with a chain of deltas;
  `adopt`: started from the release that LATEST names. -/
  | restart (fullEvery : Option Nat) (adopt : Bool)

def World.base (w : World) : Option PolicyRelease := w.chain.bind DeltaChain.base

def Stage.late : Option Stage → Bool
  | some (.upload _) => false
  | some (.put files) => decide (2 ≤ files)
  | some (.prune _) => true
  | none => true

def chainFor (s : Store) (fullEvery : Option Nat) (adopt : Bool) : Option DeltaChain :=
  fullEvery.map fun n =>
    match s.latest, adopt with
    | some latest, true => (DeltaChain.new n).adopt latest
    | _, _ => .new n

def World.release (cfg : Config) (w : World) (c : Call) (stop : Option Stage) : World :=
  let latest := w.process.latestForRelease cfg w.store
  let after := w.process.releaseStaged cfg w.store c w.base stop
  let replaced := !c.current latest && Stage.late stop
  { store := after.2.1
    process := after.1
    -- An exception leaves the chain as it is.
    chain := match after.2.2 with
      | .raised => w.chain
      | .released r => w.chain.map (DeltaChain.advance · r)
    released := if replaced
      then w.released ++ [c.record (nextName latest c.version) w.base]
      else w.released
    late := w.late || (replaced && stop.isSome)
    tidy := if replaced then stop.isNone else w.tidy }

def World.exec (cfg : Config) (w : World) : Op → Option World
  | .release c stop => some (w.release cfg c stop)
  | .restart fullEvery adopt =>
    -- `DeltaChain` refuses fewer than 2.
    if fullEvery.all fun n => decide (2 ≤ n) then
      some { w with
        process := .new
        chain := chainFor w.store fullEvery adopt
        late := false }
    else none

def releases (cfg : Config) (allowed : World → Op → Bool) : System World :=
  .guarded .new allowed (World.exec cfg)

end Yeto.Releases
