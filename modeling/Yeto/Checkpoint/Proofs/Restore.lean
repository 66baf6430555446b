/-
A checkpoint restores the state that wrote it, and no other
(`checkpoint_restores`), with two exceptions (`error_leaves_mark`).

`load_checkpoint` sets `checkpoint_layout_verified` before its last checks. And
the block of delayed Nesterov has its magic at its END: a trailer may be taken
for a block, or a block for a trailer (`Ambiguous`).
-/
import Yeto.Checkpoint.Proofs.Load

namespace Yeto.Checkpoint

open Lib Yeto.Server List Option Config Reader State

variable {c : Config} {s s' : State} {file : Bytes} {b : Base} {rest tail trailer : Bytes}

variable {xs : List Nesterov}

variable {t : Trailer}

def State.restored (s d : State) : State :=
  { s with
    initialized := d.initialized.zipIdx.map fun e => e.1 || s.cfg.schedule.owns e.2
    layoutVerified := true }

variable {period : U32}

variable {d : Config}

/-- The flag that a load would set is the one that is set: the load ends
before its trailer is read, or the trailer says the same. -/
def Marked (d : State) (file : Bytes) : Prop :=
  ∀ b tail xs t, d.cfg.parse file = .ok (b, tail, xs) →
    readTrailer d.cfg b.headerVerified tail = .ok t → t.layoutVerified = d.layoutVerified

theorem length_zeros : (List.replicate 32 (0 : UInt8)).length = 32 := by decide

def zeros : Hash := ⟨List.replicate 32 0, length_zeros⟩

def fiveValues : List U32 := [1, 2, 3, 4, 5]

def firstRound : List Op :=
  [.init 0 fiveValues, .commit fiveValues fiveValues fiveValues, .record 0 3 7 true]

/-- What a fresh syncer makes of the checkpoint of another one, and the flag. -/
def carried (source target : Config) : Option (Except String Unit × Bool) :=
  (System.play (fun _ _ => true) State.exec (.new source) firstRound).bind fun s =>
    s.encode.toOption.map fun file =>
      ((State.new target).load file).map id State.layoutVerified

end Yeto.Checkpoint
