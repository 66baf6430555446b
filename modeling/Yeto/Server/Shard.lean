/-
Head sharding (`syncer/src/shard.rs`): which global steps one syncer
process runs, and which version a fragment has in a contiguous cut.

Global step `t` merges fragment `(t − 1) mod P`, and a shard runs exactly
the steps whose fragment it owns. A plan and a schedule carry the bounds
their constructors check, so every value of these types is one the source
can build. Steps are `Nat`: they stay at most `--total-steps`, a u64.
-/
import Mathlib.Tactic.Ring

namespace Yeto.Server

structure ShardPlan where
  index : Nat
  count : Nat
  lt : index < count
deriving Repr

/-- The global steps one shard runs: those whose round-robin fragment lies
in the owned range, which is never empty. -/
structure ShardSchedule where
  first : Nat
  stop : Nat
  fragments : Nat
  nonempty : first < stop
  within : stop ≤ fragments
deriving Repr

namespace ShardPlan

def new (index count : Nat) : Except String ShardPlan :=
  if count = 0 then .error "--shard-count must be positive"
  else if h : index < count then .ok ⟨index, count, h⟩
  else .error
    s!"--shard-index {index} must be below --shard-count {count}"

theorem range_nonempty {index count fragments : Nat} (hi : index < count) (h : count ≤ fragments) :
    index * fragments / count < (index + 1) * fragments / count := by
  have hpos : 0 < count := lt_of_le_of_lt (Nat.zero_le _) hi
  calc index * fragments / count < index * fragments / count + 1 := Nat.lt_succ_self _
    _ = (index * fragments + count) / count := (Nat.add_div_right _ hpos).symm
    _ ≤ (index * fragments + fragments) / count := Nat.div_le_div_right (Nat.add_le_add_left h _)
    _ = (index + 1) * fragments / count := by rw [Nat.succ_mul]

theorem range_within {index count : Nat} (fragments : Nat)
    (h : index < count) : (index + 1) * fragments / count ≤ fragments := by
  refine Nat.div_le_of_le_mul ?_
  exact Nat.mul_le_mul_right _ h

/-- This shard's step schedule over a layout; an error if the layout is
too small for every shard to own a fragment. -/
def schedule (plan : ShardPlan) (fragments : Nat) :
    Except String ShardSchedule :=
  let count := plan.count
  if h : plan.count ≤ fragments then
    .ok
      { first := plan.index * fragments / plan.count
        stop := (plan.index + 1) * fragments / plan.count
        fragments := fragments
        nonempty := range_nonempty plan.lt h
        within := range_within fragments plan.lt }
  else .error (s!"{count} syncer shards need at least {count} fragments, "
    ++ s!"layout has {fragments}")

end ShardPlan

namespace ShardSchedule

def unsharded (fragments : Nat) (h : 0 < fragments) : ShardSchedule :=
  { first := 0
    stop := fragments
    fragments := fragments
    nonempty := h
    within := Nat.le_refl _ }

def owns (s : ShardSchedule) (p : Nat) : Bool := decide (s.first ≤ p ∧ p < s.stop)

def owned (s : ShardSchedule) : List Nat := (List.range s.stop).filter fun p => decide (s.first ≤ p)

def fragmentForStep (s : ShardSchedule) (t : Nat) : Nat := (t - 1) % s.fragments

def ownsStep (s : ShardSchedule) (t : Nat) : Bool := decide (1 ≤ t) && s.owns (s.fragmentForStep t)

def stepAfter (s : ShardSchedule) (step : Nat) : Nat :=
  -- Step `step + 1` merges fragment `step mod P`.
  let position := step % s.fragments
  let next := step + 1
  if position < s.first then next + (s.first - position)
  else if position < s.stop then next
  else next + (s.fragments - position) + s.first

def lastStep (s : ShardSchedule) (totalSteps : Nat) : Nat :=
  if totalSteps = 0 then 0
  else
    let sweep := (totalSteps - 1) / s.fragments
    let position := (totalSteps - 1) % s.fragments
    if position ≥ s.first then
      sweep * s.fragments + min position (s.stop - 1) + 1
    else if sweep = 0 then 0
    else (sweep - 1) * s.fragments + s.stop

def roundNumber (s : ShardSchedule) (t : Nat) : Nat :=
  let len := s.stop - s.first
  let sweep := (t - 1) / s.fragments
  let position := (t - 1) % s.fragments
  sweep * len + (position - s.first) + 1

/-- The version of owned fragment `p` in a contiguous cut whose last
committed step is `globalStep`; 0 if `p` has not been merged yet. -/
def expectedVersion (s : ShardSchedule) (p globalStep : Nat) : Nat :=
  let first := p + 1
  if globalStep < first then 0
  else first + (globalStep - first) / s.fragments * s.fragments

def nextMergeOfFragment (s : ShardSchedule) (t : Nat) : Nat := t + s.fragments

end ShardSchedule

end Yeto.Server
