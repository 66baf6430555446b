/-
What a syncer reads of a checkpoint that another wrote. Up to the trailer
every field is where the writer put it (`readBase_iff`). Behind it the reader
splits what is left by its OWN block, and the rest is a comparison of lengths.
-/
import Yeto.Checkpoint.Proofs.Runs
import Mathlib.Algebra.Order.BigOperators.Group.List

namespace Yeto.Checkpoint

open Lib Yeto.Server List Reader

variable {c : Config} {s s' : State} {rest rest' : Bytes} {d : Config} {n size : Nat}
  {front : Bytes} {b : IsoBackend} {ledger : Ledger} {xs : List U32}

/-- What `load_checkpoint` asks of a state. -/
structure Ready (s : State) : Prop where
  sizes : (s.fragments.map fun f => f.params.length) = s.cfg.sizes
  momenta : ∀ f ∈ s.fragments, f.momentum.length = f.params.length
  accums : (s.nesterov.map fun x => x.accum.length)
    = if s.cfg.period.isSome then s.cfg.sizes else []
  versions : ∀ e ∈ s.fragments.zipIdx, e.1.version.val = s.cfg.versionAt s.globalStep e.2
  step : s.globalStep.val = 0 ∨ s.cfg.schedule.ownsStep s.globalStep = true
  ledger : s.ledger.size < 256 ^ 4

/-- What is read in front of the trailer. -/
def State.base (s : State) : Base := { s with headerVerified := true }

/-- What a reader with these settings has in common with the writer. -/
structure Agrees (c d : Config) : Prop where
  backend : c.backend = d.backend
  fingerprint : c.fingerprint = d.fingerprint
  sizes : c.sizes = d.sizes

end Yeto.Checkpoint
