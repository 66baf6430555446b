/-
How many deltas a release is away from a full one. `DeltaChain` counts the
deltas it was told of. Two things are not counted: a delta whose call raised
with LATEST replaced, which is no base of a later one, and the deltas under an
adopted release.
-/
import Yeto.Releases.Proofs.Prune

namespace Yeto.Releases

open Lib World DeltaChain

variable {cfg : Config} {w w' : World} {r : PolicyRelease} {rs rs' : List PolicyRelease}
  {latest : Option PolicyRelease} {chain : Option DeltaChain} {op : Op} {ops : List Op}
  {N n a k : Nat}

/-- A release is `k` deltas away from a full one, through releases that
LATEST has named. -/
inductive Depth (rs : List PolicyRelease) : PolicyRelease → Nat → Prop
  | full {r : PolicyRelease} : r.delta = none → Depth rs r 0
  | delta {r b : PolicyRelease} {k : Nat} : b ∈ rs →
      r.delta = some ⟨b.seq, b.path, b.version⟩ → Depth rs b k → Depth rs r (k + 1)

def Within (rs : List PolicyRelease) (r : PolicyRelease) (n : Nat) : Prop := ∃ k ≤ n, Depth rs r k

theorem Within.mono (h : Within rs r k) (hrs : rs ⊆ rs') (hk : k ≤ n) : Within rs' r n := by
  obtain ⟨j, hj, hdepth⟩ := h
  refine ⟨j, hj.trans hk, ?_⟩
  clear hj
  induction hdepth with
  | full hfull => exact .full hfull
  | delta hb hdelta _ ih => exact .delta (hrs hb) hdelta ih

/-- The chain of a restart makes a release in `N`, or more often, full. -/
def Op.within (N : Nat) : Op → Bool
  | .release _ _ => true
  | .restart fullEvery _ => fullEvery.all fun n => decide (n ≤ N)

/-- The chain starts from the release that LATEST names. -/
def Op.adopts (latest : Option PolicyRelease) : Op → Bool
  | .release _ _ => false
  | .restart fullEvery adopt => fullEvery.isSome && adopt && latest.isSome

/-- How many restarts of a run adopted a release. -/
def adoptions (cfg : Config) (w : World) : List Op → Nat
  | [] => 0
  | op :: ops =>
    (op.adopts w.store.latest).toNat + match exec cfg w op with
      | some w' => adoptions cfg w' ops
      | none => 0

/-- LATEST, what it has named, and the chain, after `a` restarts that
adopted a release. -/
structure DepthOk (N a : Nat) (latest : Option PolicyRelease) (rs : List PolicyRelease)
    (chain : Option DeltaChain) : Prop where
  latest : ∀ r, latest = some r → r ∈ rs
  released : ∀ r ∈ rs, Within rs r ((a + 1) * (N - 1))
  every : ∀ c, chain = some c → c.fullEvery ≤ N
  last : ∀ c, chain = some c → ∀ r, c.last = some r →
    r ∈ rs ∧ Within rs r (a * (N - 1) + c.sinceFull)

/-- What a release call does to LATEST and to the chain. -/
theorem release_cases (cfg : Config) (w : World) (c : Call) (stop : Option Stage) :
    ((w.release cfg c stop).store.latest = w.store.latest
        ∧ (w.release cfg c stop).released = w.released
        ∧ (w.release cfg c stop).chain = w.chain)
      ∨ ∃ name, (w.release cfg c stop).store.latest = some (c.record name w.base)
        ∧ (w.release cfg c stop).released = w.released ++ [c.record name w.base]
        ∧ ((w.release cfg c stop).chain = w.chain
          ∨ (w.release cfg c stop).chain
            = w.chain.map (advance · (some (c.record name w.base)))) := by
  unfold World.release Process.releaseStaged
  dsimp only
  cases hcur : c.current (w.process.latestForRelease cfg w.store) with
  | true => exact .inl ⟨rfl, rfl, advance_none w.chain⟩
  | false =>
    rcases stop with _ | ⟨left⟩ | files | removed
    · exact .inr ⟨_, rfl, rfl, .inr rfl⟩
    · cases left <;> exact .inl ⟨rfl, rfl, rfl⟩
    · by_cases hfiles : 2 ≤ files
      · refine .inr ⟨nextName (w.process.latestForRelease cfg w.store) c.version, ?_, ?_, .inl rfl⟩
        · simp [Store.putFiles, hfiles]
        · simp [Stage.late, hfiles]
      · left
        simp [Store.putFiles, Store.putDirectory, Stage.late, hfiles]
    · exact .inr ⟨_, rfl, rfl, .inl rfl⟩

section Step

variable (h : DepthOk N a latest rs chain)
include h

/-- The new release: full, or one delta more than the chain counts. -/
theorem DepthOk.record (c : Call) (name : Name)
    (hr : r = c.record name (chain.bind DeltaChain.base)) : Depth rs r 0
    ∨ ∃ before, chain = some before ∧ before.sinceFull + 1 ≤ N - 1 ∧ r.delta.isNone = false
      ∧ Within rs r (a * (N - 1) + (before.sinceFull + 1)) := by
  cases hdelta : r.delta with
  | none => exact .inl (.full hdelta)
  | some d =>
    have hd : c.delta (chain.bind DeltaChain.base) = some d := by rw [← hdelta, hr]; rfl
    obtain ⟨-, hd⟩ := Option.ite_none_right_eq_some.1 hd
    obtain ⟨b, hb, rfl⟩ := Option.map_eq_some_iff.1 hd
    obtain ⟨before, hbefore, hlast⟩ := Option.bind_eq_some_iff.1 hb
    obtain ⟨hroom, hlast⟩ := Option.ite_none_left_eq_some.1 hlast
    obtain ⟨hmem, k, hk, hdepth⟩ := h.last before hbefore b hlast
    have hN := h.every before hbefore
    exact .inr ⟨before, hbefore, by omega, rfl, k + 1, by omega, .delta hmem hdelta hdepth⟩

/-- LATEST is replaced, and the chain is not told. -/
theorem DepthOk.replace (c : Call) (name : Name)
    (hr : r = c.record name (chain.bind DeltaChain.base)) :
    DepthOk N a (some r) (rs ++ [r]) chain := by
  have hsub : rs ⊆ rs ++ [r] := List.subset_append_left ..
  refine ⟨fun x hx => ?_, fun x hx => ?_, h.every, fun before hbefore x hx => ?_⟩
  · exact Option.some.inj hx ▸ List.mem_concat_self
  · rcases List.mem_append.1 hx with hx | hx
    · exact (h.released x hx).mono hsub le_rfl
    obtain rfl := List.mem_singleton.1 hx
    rcases h.record c name hr with hfull | ⟨before, -, hroom, -, hwithin⟩
    · exact Within.mono ⟨0, le_rfl, hfull⟩ hsub (Nat.zero_le _)
    · refine hwithin.mono hsub ?_
      rw [Nat.succ_mul]
      omega
  · obtain ⟨hmem, hwithin⟩ := h.last before hbefore x hx
    exact ⟨hsub hmem, hwithin.mono hsub le_rfl⟩

theorem DepthOk.advance (c : Call) (name : Name)
    (hr : r = c.record name (chain.bind DeltaChain.base)) :
    DepthOk N a (some r) (rs ++ [r]) (chain.map (DeltaChain.advance · (some r))) := by
  have hsub : rs ⊆ rs ++ [r] := List.subset_append_left ..
  have hreplaced := h.replace c name hr
  refine ⟨hreplaced.latest, hreplaced.released, fun after hafter => ?_, fun after hafter x hx => ?_⟩
  all_goals obtain ⟨before, hbefore, rfl⟩ := Option.map_eq_some_iff.1 hafter
  · exact h.every before hbefore
  obtain rfl := Option.some.inj hx
  refine ⟨List.mem_concat_self, ?_⟩
  rcases h.record c name hr with hfull | ⟨counted, hcounted, -, hdelta, hwithin⟩
  · exact Within.mono ⟨0, le_rfl, hfull⟩ hsub (Nat.zero_le _)
  · obtain rfl := Option.some.inj (hbefore.symm.trans hcounted)
    refine hwithin.mono hsub ?_
    simp [DeltaChain.advance, hdelta]

theorem DepthOk.restart {s : Store} (hs : s.latest = latest) {fullEvery : Option Nat}
    {adopt : Bool} (hN : Op.within N (.restart fullEvery adopt) = true) :
    DepthOk N (a + ((Op.restart fullEvery adopt).adopts latest).toNat) latest rs
      (chainFor s fullEvery adopt) := by
  refine ⟨h.latest, fun r hr => (h.released r hr).mono (List.Subset.refl _) ?_, ?_, ?_⟩
  · exact Nat.mul_le_mul_right _ (by omega)
  all_goals
    intro after hafter
    obtain ⟨n, rfl, rfl⟩ := Option.map_eq_some_iff.1 hafter
    have hn : n ≤ N := by simpa [Op.within] using hN
    rw [hs]
  · cases latest <;> cases adopt <;> exact hn
  · cases latest with
    | none => simp [DeltaChain.new]
    | some x =>
      cases adopt with
      | false => simp [DeltaChain.new]
      | true =>
        intro r hr
        obtain rfl := Option.some.inj hr
        exact ⟨h.latest x rfl, h.released x (h.latest x rfl)⟩

end Step

def Bounded (N a : Nat) (w : World) : Prop := DepthOk N a w.store.latest w.released w.chain

theorem Bounded.exec (h : Bounded N a w) (hN : op.within N = true)
    (hexec : World.exec cfg w op = some w') :
    Bounded N (a + (op.adopts w.store.latest).toNat) w' := by
  cases op with
  | release c stop =>
    obtain rfl := Option.some.inj hexec
    unfold Bounded
    rcases release_cases cfg w c stop with ⟨hlatest, hreleased, hchain⟩ |
      ⟨name, hlatest, hreleased, hchain | hchain⟩
    all_goals rw [hlatest, hreleased, hchain]
    · exact h
    · exact h.replace c name rfl
    · exact h.advance c name rfl
  | restart fullEvery adopt =>
    obtain ⟨-, hexec⟩ := Option.ite_none_right_eq_some.1 hexec
    obtain rfl := Option.some.inj hexec
    exact h.restart rfl hN

theorem Bounded.play (h : Bounded N a w)
    (hplay : System.play (fun _ => Op.within N) (World.exec cfg) w ops = some w') :
    Bounded N (a + adoptions cfg w ops) w' := by
  induction ops generalizing w a with
  | nil =>
    cases hplay
    exact h
  | cons op ops ih =>
    obtain ⟨hN, hplay⟩ := Option.ite_none_right_eq_some.1 hplay
    obtain ⟨w₁, hexec, hrest⟩ := Option.bind_eq_some_iff.1 hplay
    unfold adoptions
    rw [hexec, ← Nat.add_assoc]
    exact ih (h.exec hN hexec) hrest

/-- A SAMPLER REBUILDS A BOUNDED CHAIN: whatever call raised where, every
release is less than `full_every` deltas away from a full one, and less than
`full_every` more for each restart that adopted a release. -/
theorem release_within (hplay : System.play (fun _ => Op.within N) (exec cfg) .new ops = some w)
    (hr : r ∈ w.released) : Within w.released r ((adoptions cfg .new ops + 1) * (N - 1)) := by
  have hnew : Bounded N 0 .new := by constructor <;> simp [World.new]
  have hok := hnew.play hplay
  rw [Nat.zero_add] at hok
  exact hok.released r hr

def adoptedDelta : List Op := [.restart (some 2) false, .release ⟨0, 7, .full, true⟩ none,
    .release ⟨1, 8, .full, true⟩ none, .restart (some 2) true, .release ⟨2, 9, .full, true⟩ none]

/-- Every second release is to be full. A restart adopts the delta, and the
release after it is two deltas away from a full one. -/
theorem release_within_adopted : ∃ w r,
    System.play (fun _ => Op.within 2) (exec keepOne) .new adoptedDelta = some w
      ∧ r ∈ w.released ∧ Depth w.released r 2 ∧ Within w.released r 2 := by
  obtain ⟨w, hplay⟩ : ∃ w, System.play (fun _ => Op.within 2) (exec keepOne) .new
    adoptedDelta = some w := ⟨_, rfl⟩
  have hwithin := fun r hr => release_within (r := r) hplay hr
  cases hplay
  refine ⟨_, _, rfl, List.mem_concat_self, ?_, hwithin _ List.mem_concat_self⟩
  exact .delta (b := ⟨2, 1, 8, ⟨2, 1⟩, .full, some ⟨1, ⟨1, 0⟩, 0⟩⟩) (by decide) rfl
    (.delta (b := ⟨1, 0, 7, ⟨1, 0⟩, .full, none⟩) (by decide) rfl (.full rfl))

end Yeto.Releases
