/-
The syncer's checkpoint (`syncer/src/state.rs`: `GlobalState`,
`CheckpointSnapshot::write_to`, `CheckpointReader`, `load_checkpoint`).

Header with the ISO backend and the layout fingerprint; the step; the
fragments; the ledger; the fingerprint again; then a trailer told by the
number of bytes left. The block of delayed Nesterov comes last, and a reader
that wants one hides as many bytes as its block has before it reads the rest.

A float is its four bytes, a layout the sizes of its tensors; a fragment of
another shard is empty. What `commit_merge` computes is a parameter of the
step. `load` returns what it tells its caller and the state it leaves.
-/
import Yeto.Lib.Bytes
import Yeto.Lib.SortedMap
import Yeto.Lib.System
import Yeto.Server.Shard
import Mathlib.Order.Fin.Basic

namespace Yeto.Checkpoint

open Lib Yeto.Server

abbrev Bytes := List UInt8
abbrev U32 := Fin (256 ^ 4)
abbrev U64 := Fin (256 ^ 8)

instance neZeroU32 : NeZero (256 ^ 4) := ⟨by decide⟩
instance neZeroU64 : NeZero (256 ^ 8) := ⟨by decide⟩

abbrev Hash := { bs : Bytes // bs.length = 32 }

inductive IsoBackend
  | scalar
  | torchSvd
deriving Repr, DecidableEq

def IsoBackend.id : IsoBackend → Nat
  | .scalar => 0
  | .torchSvd => 1

def IsoBackend.name : IsoBackend → String
  | .scalar => "scalar"
  | .torchSvd => "torch-svd"

def IsoBackend.fromCheckpoint (value : Nat) : Except String IsoBackend :=
  if value = 0 then .ok .scalar
  else if value = 1 then .ok .torchSvd
  else .error s!"checkpoint has unknown iso backend id {value}"

/-- What a syncer is started with, and the layout of its first HELLO. -/
structure Config where
  layout : List (List Nat)
  shard : ShardPlan
  schedule : ShardSchedule
  fingerprint : Hash
  backend : IsoBackend
  sweep : Option U32
  contract : Option Hash
  period : Option U32
  learners : U32
  planned : shard.schedule layout.length = .ok schedule
  few : layout.length < 256 ^ 4
  numels : ∀ tensors ∈ layout, 0 < tensors.sum
  /-- The state is in memory. -/
  room : (layout.map fun tensors => 8 + 4 * tensors.sum).sum + 8 < 256 ^ 8
  sweeps : ∀ k, sweep = some k → k ≠ 0 ∧ contract.isSome

def Config.sizes (c : Config) : List Nat :=
  c.layout.zipIdx.map fun e => if c.schedule.owns e.2 then e.1.sum else 0

structure Fragment where
  version : U64
  params : List U32
  momentum : List U32
deriving DecidableEq

structure Nesterov where
  step : U64
  accum : List U32
deriving DecidableEq

structure LearnerLedger where
  merges : U64
  steps : U64
  tokens : U64
deriving DecidableEq

abbrev Ledger := SortedMap U32 LearnerLedger

structure State where
  cfg : Config
  globalStep : U64
  fragments : List Fragment
  /-- Empty unless the period is set. -/
  nesterov : List Nesterov
  initialized : List Bool
  ledger : Ledger
  layoutVerified : Bool

def State.new (c : Config) : State where
  cfg := c
  globalStep := 0
  fragments := c.layout.map fun _ => ⟨0, [], []⟩
  nesterov := if c.period.isSome then c.layout.map fun _ => ⟨0, []⟩ else []
  initialized := c.layout.map fun _ => false
  ledger := .empty
  layoutVerified := false

inductive Op
  | init (fid : Nat) (values : List U32)
  /-- The commit of the next round, with what the optimizer computes. -/
  | commit (params momentum accum : List U32)
  | record (learner : U32) (steps tokens : U64) (account : Bool)

def State.commit (s : State) (t : U64) (params momentum accum : List U32) : State :=
  let p := s.cfg.schedule.fragmentForStep t
  { s with
    globalStep := t
    fragments := s.fragments.set p ⟨t, params, momentum⟩
    nesterov := s.nesterov.modify p fun x => ⟨x.step + 1, accum⟩ }

def State.merged (s : State) (learner : U32) (steps tokens : U64)
    (account : Bool) : LearnerLedger :=
  let e := (s.ledger.find learner).getD ⟨0, 0, 0⟩
  { merges := e.merges + 1
    steps := if account then e.steps + steps else e.steps
    tokens := if account then e.tokens + tokens else e.tokens }

def State.allInitialized (s : State) : Bool :=
  s.initialized.zipIdx.all fun e => !s.cfg.schedule.owns e.2 || e.1

def State.exec (s : State) : Op → Option State
  | .init fid values =>
    if s.cfg.schedule.owns fid ∧ s.cfg.sizes[fid]? = some values.length
        ∧ s.initialized[fid]? = some false then
      some { s with
        fragments := s.fragments.modify fid fun f =>
          { f with
            params := values
            momentum := values.map fun _ => 0 }
        nesterov := s.nesterov.modify fid fun _ =>
          ⟨0, values.map fun _ => 0⟩
        initialized := s.initialized.set fid true }
    else none
  | .commit params momentum accum =>
    let t := s.cfg.schedule.stepAfter s.globalStep
    let size := s.cfg.sizes[s.cfg.schedule.fragmentForStep t]?
    if h : t < 256 ^ 8 then
      if s.allInitialized ∧ size = some params.length
          ∧ size = some momentum.length ∧ size = some accum.length then
        some (s.commit ⟨t, h⟩ params momentum accum)
      else none
    else none
  | .record learner steps tokens account =>
    -- A HELLO of any other learner is refused.
    if learner < s.cfg.learners then
      some { s with ledger := s.ledger.insert learner (s.merged learner steps tokens account) }
    else none

def runs (c : Config) : System State := System.guarded (.new c) (fun _ _ => true) State.exec

def ckptMagicV1 : U32 := 0xD1705A7E
def ckptMagicV2 : U32 := 0xD1705A7F
def ckptMagicV3 : U32 := 0xD1705A80
def sessionContractMagic : U32 := 0x52544353
def policySweepMagic : U32 := 0x50535750
def delayedNesterovMagic : U32 := 0x444E5354

def floats (xs : List U32) : Bytes := xs.flatMap fun x : U32 => le 4 x.val

def Fragment.encode (f : Fragment) : Bytes :=
  le 8 f.version ++ (le 8 f.params.length ++ (floats f.params ++ floats f.momentum))

def encodeEntry (e : U32 × LearnerLedger) : Bytes :=
  le 4 e.1 ++ (le 8 e.2.merges ++ (le 8 e.2.steps ++ le 8 e.2.tokens))

def Nesterov.encode (x : Nesterov) : Bytes := le 8 x.step ++ floats x.accum

/-- The trailer, with the fingerprint it follows; an error in
`checkpoint_snapshot`. -/
def Config.trailer (c : Config) : Except String Bytes :=
  match c.sweep, c.contract with
  | some k, some hash => .ok (c.fingerprint.1 ++ (le 4 policySweepMagic ++ (le 4 k ++ hash.1)))
  | some _, none => .error "policy-sweep checkpoint requires a session contract hash"
  | none, some hash => .ok (c.fingerprint.1 ++ (le 4 sessionContractMagic ++ hash.1))
  | none, none => .ok c.fingerprint.1

def State.nesterovBlock (s : State) : Bytes :=
  match s.cfg.period with
  | none => []
  | some period => s.nesterov.flatMap Nesterov.encode ++ (le 4 period ++ le 4 delayedNesterovMagic)

/-- What comes before the trailer. -/
def State.encodeBase (s : State) : Bytes :=
  le 4 ckptMagicV3 ++ (le 1 s.cfg.backend.id ++ (s.cfg.fingerprint.1
    ++ (le 8 s.globalStep ++ (le 4 s.fragments.length
    ++ (s.fragments.flatMap Fragment.encode ++ (le 4 s.ledger.size
    ++ s.ledger.entries.flatMap encodeEntry))))))

def State.encode (s : State) : Except String Bytes :=
  s.cfg.trailer.map fun trailer => s.encodeBase ++ (trailer ++ s.nesterovBlock)

def truncated : String := "payload truncated"

def u32 : Reader U32 := Reader.fin truncated 4
def u64 : Reader U64 := Reader.fin truncated 8

def readFloats (n : Nat) : Reader (List U32) := Reader.many u32 n

def fail {α : Type} (message : String) : Reader α := fun _ => .error message

def readHeader (c : Config) : Reader Bool := do
  let magic ← u32
  if magic = ckptMagicV1 then
    fail ("checkpoint V1 cannot be resumed safely: it records neither the ISO "
      ++ "backend nor the semantic layout fingerprint")
  else if magic = ckptMagicV2 ∨ magic = ckptMagicV3 then
    let id ← Reader.word truncated 1
    let backend ← Reader.ofExcept (IsoBackend.fromCheckpoint id)
    let fingerprint ← Reader.take truncated (if magic = ckptMagicV3 then 32 else 0)
    let name := backend.name
    let configured := c.backend.name
    Reader.ensure (backend = c.backend)
      (s!"checkpoint iso backend {name} does not match configured backend "
        ++ s!"{configured}")
    Reader.ensure (magic = ckptMagicV3 → fingerprint = c.fingerprint.1)
      ("checkpoint semantic layout fingerprint does not match the accepted "
        ++ "HELLO layout")
    pure (decide (magic = ckptMagicV3))
  else fail "bad checkpoint magic"

def readFragment (size p : Nat) : Reader Fragment := do
  let version ← u64
  let numel ← u64
  Reader.ensure (numel.val = size)
    s!"checkpoint fragment {p} numel {numel} != layout {size}"
  let params ← readFloats size
  let momentum ← readFloats size
  pure ⟨version, params, momentum⟩

def readFragments : List Nat → Nat → Reader (List Fragment)
  | [], _ => pure []
  | size :: sizes, p => do
    let f ← readFragment size p
    let fs ← readFragments sizes (p + 1)
    pure (f :: fs)

def readEntry : Reader (U32 × LearnerLedger) := do
  let id ← u32
  let merges ← u64
  let steps ← u64
  let tokens ← u64
  pure (id, ⟨merges, steps, tokens⟩)

def readLedger : Nat → Ledger → Reader Ledger
  | 0, ledger => pure ledger
  | n + 1, ledger => do
    let e ← readEntry
    let id := e.1
    Reader.ensure (ledger.find e.1 = none)
      s!"checkpoint contains duplicate ledger entry for learner {id}"
    readLedger n (ledger.insert e.1 e.2)

structure Base where
  headerVerified : Bool
  globalStep : U64
  fragments : List Fragment
  ledger : Ledger

def readBase (c : Config) : Reader Base := do
  let headerVerified ← readHeader c
  let globalStep ← u64
  let np ← u32
  let count := c.layout.length
  Reader.ensure (np.val = c.layout.length)
    s!"checkpoint has {np} fragments, layout has {count}"
  let fragments ← readFragments c.sizes 0
  let nl ← u32
  let ledger ← readLedger nl .empty
  pure ⟨headerVerified, globalStep, fragments, ledger⟩

def Config.blockBytes (c : Config) : Nat :=
  if c.period.isNone then 0
  else 8 + (c.sizes.map fun size => 8 + 4 * size).sum

def readNesterovs : List Nat → Reader (List Nesterov)
  | [] => pure []
  | size :: sizes => do
    let step ← u64
    let accum ← readFloats size
    let xs ← readNesterovs sizes
    pure (⟨step, accum⟩ :: xs)

def readBlock (c : Config) : Reader (List Nesterov) :=
  match c.period with
  | none => pure []
  | some period => do
    let xs ← readNesterovs c.sizes
    let found ← u32
    let magic ← u32
    Reader.ensure (magic = delayedNesterovMagic)
      "checkpoint has no delayed Nesterov state"
    Reader.ensure (found = period)
      s!"checkpoint delayed Nesterov period {found} != configured {period}"
    pure xs

structure Trailer where
  sweep : Option U32
  contract : Option Bytes
  layoutVerified : Bool

def readTrailer (c : Config) (headerVerified : Bool) (tail : Bytes) : Except String Trailer :=
  let remaining := tail.length
  let magic := ofLe ((tail.drop 32).take 4)
  let fragments := ofLe ((tail.drop 36).take 4)
  if remaining = 0 then .ok ⟨none, none, headerVerified⟩
  else if remaining ∉ [32, 40, 68, 72] then
    .error s!"checkpoint has {remaining} trailing bytes"
  else if tail.take 32 ≠ c.fingerprint.1 then
    .error "checkpoint layout fingerprint does not match HELLO"
  else if remaining = 32 then .ok ⟨none, none, true⟩
  else if remaining = 68 then
    if magic ≠ sessionContractMagic then
      .error "checkpoint has an invalid session-contract trailer"
    else .ok ⟨none, some (tail.drop 36), true⟩
  else if magic ≠ policySweepMagic then
    .error "checkpoint has an invalid policy-sweep trailer"
  else if fragments = 0 then
    .error "checkpoint policy-sweep fragment count must be positive"
  else if remaining = 40 then
    .error "policy-sweep checkpoint is missing its session contract hash"
  else .ok ⟨some (Fin.ofNat _ fragments), some (tail.drop 40), true⟩

def showProfile : Option U32 → String
  | none => "None"
  | some k => s!"Some({k})"

/-- The version of a fragment in a contiguous cut. -/
def Config.versionAt (c : Config) (step fid : Nat) : Nat :=
  if c.schedule.owns fid then c.schedule.expectedVersion fid step else 0

def Config.check (c : Config) (b : Base) (t : Trailer) : Except String Unit :=
  let step := b.globalStep.val
  if t.sweep ≠ c.sweep then
    let actual := showProfile t.sweep
    let expected := showProfile c.sweep
    .error (s!"checkpoint policy-sweep profile {actual} does not match configured "
      ++ s!"profile {expected}")
  else if t.contract ≠ c.contract.map Subtype.val
      -- A layout-only checkpoint stands for the contract that is its layout.
      ∧ ¬ (t.contract = none ∧ t.layoutVerified
        ∧ c.contract = some c.fingerprint ∧ c.sweep = none) then
    if t.contract = none then
      .error "checkpoint is missing the session contract hash required by HELLO"
    else .error "checkpoint session contract hash does not match HELLO"
  else if ¬ t.layoutVerified ∧ c.layout.any fun f => f.length ≠ 1 then
    .error ("checkpoint has no semantic layout fingerprint and cannot resume a "
      ++ "grouped multi-tensor layout")
  else if step ≠ 0 ∧ ¬ c.schedule.ownsStep step then
    let index := c.shard.index
    let count := c.shard.count
    .error (s!"checkpoint global_step {step} is not a step of syncer shard "
      ++ s!"{index}/{count}")
  else match b.fragments.zipIdx.find? fun e =>
      e.1.version.val ≠ c.versionAt step e.2 with
    | none => .ok ()
    | some (f, fid) =>
      let version := f.version
      let expected := c.versionAt step fid
      .error (s!"checkpoint is not a contiguous strict-order cut: fragment {fid} "
        ++ s!"version {version}, expected {expected} at global_step {step}")

/-- The parts of a file, read before anything of the state changes. -/
def Config.parse (c : Config) (file : Bytes) : Except String (Base × Bytes × List Nesterov) :=
  let block := c.blockBytes
  let visible := file.length - block
  if 256 ^ 8 ≤ block then
    .error "delayed Nesterov checkpoint block size overflows"
  else if file.length < block then
    .error "checkpoint has no delayed Nesterov state"
  else match readBase c (file.take visible) with
    | .error m => .error m
    | .ok (base, tail) =>
      let remaining := tail.length
      if 72 < tail.length then
        .error s!"checkpoint has {remaining} trailing bytes"
      else match readBlock c (file.drop visible) with
        | .error m => .error m
        | .ok (nesterov, _) => .ok (base, tail, nesterov)

def State.load (s : State) (file : Bytes) : Except String Unit × State :=
  match s.cfg.parse file with
  | .error m => (.error m, s)
  | .ok (b, tail, nesterov) =>
    match readTrailer s.cfg b.headerVerified tail with
    | .error m => (.error m, s)
    | .ok t =>
      -- The flag is set here, before the last checks.
      let s := { s with layoutVerified := t.layoutVerified }
      match s.cfg.check b t with
      | .error m => (.error m, s)
      | .ok () => (.ok (), { s with
          globalStep := b.globalStep
          fragments := b.fragments
          nesterov := nesterov
          initialized := s.initialized.zipIdx.map fun e =>
            e.1 || s.cfg.schedule.owns e.2
          ledger := b.ledger })

end Yeto.Checkpoint
