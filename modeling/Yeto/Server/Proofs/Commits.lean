/-
Strict contiguous commits under pipelining.

A launched round is in flight, computing or ready until it commits, and its
fragment stays busy until the commit is published. `PipelineOk`: the
uncommitted rounds are exactly the owned steps from the next commit up to the
next launch, one each, and each is based on the version its fragment has. An
operation that only moves rounds permutes their keys (`PipelineOk.moved`).
-/
import Yeto.Server.Proofs.Rounds
import Yeto.Server.Proofs.Shard
import Yeto.Downlink.Proofs.Agree

namespace Yeto.Server

open Lib Downlink List Pipeline Round SortedMap

variable {room : Group → Room} {values : List F32} {inflight : List Round} {clock k t : Nat}
  {r r' round : Round}

structure RoundKey where
  t : Nat
  p : Nat
  base : Nat
deriving DecidableEq

def Round.key (r : Round) : RoundKey := ⟨r.t, r.p, r.baseVersion⟩

def Pipeline.rounds (pipe : Pipeline) : List Round := pipe.inflight ++ (pipe.computing.map Prod.fst
    ++ pipe.ready.values.map ComputedRound.round)

def Pipeline.keys (pipe : Pipeline) : List RoundKey := pipe.rounds.map Round.key

def Pipeline.held (pipe : Pipeline) : List Nat := pipe.publishing.toList.map PendingPublish.p

/-- The failures of the checks on steps, base versions and busy
fragments. -/
def Failure.ofCommits : Failure → Bool
  | .roundBase | .computedMetadata | .computedBase | .duplicateComputed
  | .notContiguous | .commitBase | .busyLost => true
  | _ => false

namespace Syncer

variable {n : Numerics} {cfg : Config} {s s' : Syncer} {f : Failure}
  {lateCarry : Option LateCarry} {c : ComputedRound}

structure PipelineOk (cfg : Config) (s : Syncer) : Prop where
  length : s.st.versions.length = cfg.layout.length
  cut : ∀ p, cfg.schedule.owns p = true → s.st.versions[p]?
    = some (cfg.schedule.expectedVersion p s.st.globalStep)
  nextCommit : s.pipe.nextCommitT = cfg.schedule.stepAfter s.st.globalStep
  nextLe : s.pipe.nextCommitT ≤ s.pipe.nextT
  nextOwned : cfg.schedule.ownsStep s.pipe.nextT = true
  steps : (s.pipe.keys.map RoundKey.t).Nodup
  /-- The uncommitted rounds are the owned steps between the next commit
  and the next launch. -/
  contiguous : ∀ t, t ∈ s.pipe.keys.map RoundKey.t
    ↔ cfg.schedule.ownsStep t = true ∧ s.pipe.nextCommitT ≤ t ∧ t < s.pipe.nextT
  fragment : ∀ k ∈ s.pipe.keys, k.p = cfg.schedule.fragmentForStep k.t
  base : ∀ k ∈ s.pipe.keys, s.st.versions[k.p]? = some k.base
  merges : ∀ e ∈ s.pipe.computing, e.2 = ⟨e.1.p, e.1.baseVersion⟩
  ready : ∀ t c, s.pipe.ready.find t = some c →
    c.round.t = t ∧ c.merge = ⟨c.round.p, c.round.baseVersion⟩
  /-- A fragment is busy from the launch of its round to its publication. -/
  busy : (s.pipe.keys.map RoundKey.p ++ s.pipe.held).Perm s.pipe.busyFragments
  free : s.pipe.busyFragments.Nodup

section Keys

variable {pipe : Pipeline}

theorem keys_eq : pipe.keys = pipe.inflight.map key
      ++ (pipe.computing.map (fun e => e.1.key) ++ pipe.ready.values.map fun c => c.round.key) := by
  simp [Pipeline.keys, rounds, Function.comp_def]

theorem mem_keys_iff {k : RoundKey} : k ∈ pipe.keys ↔ ∃ r ∈ pipe.rounds, r.key = k := by
  simp [Pipeline.keys]

theorem key_sameWork (h : Round.SameWork r r') : r'.key = r.key := by
  unfold key
  rw [h.t, h.p, h.baseVersion]

theorem map_key_quiet {reg : RegistryState} {rounds rounds' : List Round}
    (h : List.Forall₂ (Quiet reg) rounds rounds') : rounds'.map key = rounds.map key := by
  induction h with
  | nil => rfl
  | cons hq _ ih => rw [map_cons, map_cons, ih, key_sameWork (sameWork_quiet hq)]

theorem key_advanceFold (r : Round) {m : Member} : (r.advanceFold cfg m).key = r.key := by
  obtain ⟨fold, pushes, heq, -⟩ := advanceFold_spec cfg m
  rw [heq]
  rfl

theorem map_key_replace {l₁ l₂ : List Round} (h : r'.key = r.key) :
    (l₁ ++ r' :: l₂).map key = (l₁ ++ r :: l₂).map key := by
  rw [map_append, map_append, map_cons, map_cons, h]

theorem map_key_set {rounds : List Round} (hk : rounds[k]? = some r) (h : r'.key = r.key) :
    (rounds.set k r').map key = rounds.map key := by
  rw [map_set, h]
  have hk' : (rounds.map key)[k]? = some r.key := by
    rw [List.getElem?_map, hk]
    rfl
  obtain ⟨hlt, hget⟩ := List.getElem?_eq_some_iff.1 hk'
  rw [← hget, set_getElem_self]

theorem perm_eraseIdx {α : Type*} {l : List α} {a : α} (hk : l[k]? = some a) :
    (a :: l.eraseIdx k).Perm l := by
  obtain ⟨hlt, rfl⟩ := List.getElem?_eq_some_iff.1 hk
  exact getElem_cons_eraseIdx_perm hlt

end Keys

theorem PipelineOk.of_pipe {pipe : Pipeline} (hcut : SameCut s s')
    (hpipe : s'.pipe = pipe) (h : PipelineOk cfg { s with pipe := pipe }) : PipelineOk cfg s' := by
  subst hpipe
  obtain ⟨hvers, hstep⟩ := hcut
  refine { h with
    length := ?_, cut := fun p hp => ?_, nextCommit := ?_
    base := fun k hk => ?_ }
  · rw [hvers]
    exact h.length
  · rw [hvers, hstep]
    exact h.cut p hp
  · rw [hstep]
    exact h.nextCommit
  · rw [hvers]
    exact h.base k hk

theorem keys_commit (hc : s.pipe.ready.find s.pipe.nextCommitT = some c) :
    s.pipe.keys.Perm (c.round.key :: ({ s.pipe with ready := s.pipe.ready.erase s.pipe.nextCommitT }
        : Pipeline).keys) := by
  have hperm : s.pipe.ready.values.Perm (c :: (s.pipe.ready.erase s.pipe.nextCommitT).values) :=
    (s.pipe.ready.entries_erase_perm hc).map Prod.snd
  rw [keys_eq, keys_eq]
  refine ((hperm.map fun c => c.round.key).append_left _).append_left _ |>.trans ?_
  exact (perm_middle.append_left _).trans perm_middle

section

variable (h : PipelineOk cfg s)
include h

theorem PipelineOk.moved {computing : List (Round × PreparedMerge)}
    {ready : SortedMap Nat ComputedRound}
    (hkeys : ({ s.pipe with inflight, computing, ready } : Pipeline).keys.Perm s.pipe.keys)
    (hmerges : ∀ e ∈ computing, e.2 = ⟨e.1.p, e.1.baseVersion⟩)
    (hready : ∀ t c, ready.find t = some c →
      c.round.t = t ∧ c.merge = ⟨c.round.p, c.round.baseVersion⟩) : PipelineOk cfg { s with
      pipe := { s.pipe with inflight, computing, ready, lateCarry } } := { h with
    steps := (hkeys.map _).nodup_iff.2 h.steps
    contiguous := fun t => (hkeys.map _).mem_iff.trans (h.contiguous t)
    fragment := fun k hk => h.fragment k (hkeys.mem_iff.1 hk)
    base := fun k hk => h.base k (hkeys.mem_iff.1 hk)
    merges := hmerges
    ready := hready
    busy := ((hkeys.map _).append_right _).trans h.busy }

theorem pipelineOk_inflight (hcut : SameCut s s')
    (hpipe : s'.pipe = { s.pipe with inflight, lateCarry })
    (hkeys : inflight.map key = s.pipe.inflight.map key) : PipelineOk cfg s' := by
  refine .of_pipe hcut hpipe (h.moved ?_ h.merges h.ready)
  rw [keys_eq, keys_eq, hkeys]

theorem pipelineOk_launch (hcut : SameCut s s')
    (hround : round.key = ⟨s.pipe.nextT, cfg.schedule.fragmentForStep s.pipe.nextT,
      s.st.versions.getD (cfg.schedule.fragmentForStep s.pipe.nextT) 0⟩)
    (hfree : cfg.schedule.fragmentForStep s.pipe.nextT ∉ s.pipe.busyFragments)
    (hpipe : s'.pipe = { s.pipe with
      nextT := cfg.schedule.stepAfter s.pipe.nextT
      busyFragments := cfg.schedule.fragmentForStep s.pipe.nextT :: s.pipe.busyFragments
      inflight := s.pipe.inflight ++ [round]
      lateCarry }) : PipelineOk cfg s' := by
  have howns := ((cfg.schedule.ownsStep_iff _).1 h.nextOwned).2
  have hkeys : ({ s.pipe with inflight := s.pipe.inflight ++ [round] }
      : Pipeline).keys.Perm (round.key :: s.pipe.keys) := by
    rw [keys_eq, keys_eq, map_append]
    exact (perm_append_comm.append_right _).trans (by simp)
  have hsteps := hkeys.map RoundKey.t
  have hnew : s.pipe.nextT ∉ s.pipe.keys.map RoundKey.t := fun hmem =>
    lt_irrefl _ ((h.contiguous _).1 hmem).2.2
  rw [map_cons, hround] at hsteps
  refine .of_pipe hcut hpipe { h with
    nextLe := le_trans h.nextLe (Nat.le_of_lt (cfg.schedule.lt_stepAfter _))
    nextOwned := cfg.schedule.ownsStep_stepAfter _
    steps := hsteps.nodup_iff.2 (nodup_cons.2 ⟨hnew, h.steps⟩)
    contiguous := fun t => hsteps.mem_iff.trans ?_
    fragment := fun k hk => ?_, base := fun k hk => ?_, busy := ?_
    free := nodup_cons.2 ⟨hfree, h.free⟩ }
  · -- No owned step lies between the launched one and the next.
    rw [mem_cons, h.contiguous t]
    constructor
    · rintro (rfl | ⟨hown, hle, hlt⟩)
      · exact ⟨h.nextOwned, h.nextLe, cfg.schedule.lt_stepAfter _⟩
      · exact ⟨hown, hle, lt_trans hlt (cfg.schedule.lt_stepAfter _)⟩
    · rintro ⟨hown, hle, hlt⟩
      rcases Nat.lt_trichotomy t s.pipe.nextT with hlt' | rfl | hgt
      · exact .inr ⟨hown, hle, hlt'⟩
      · exact .inl rfl
      · exact absurd hlt (not_lt.2 (cfg.schedule.stepAfter_le hown hgt))
  · rcases mem_cons.1 (hkeys.mem_iff.1 hk) with rfl | hk
    · rw [hround]
    · exact h.fragment k hk
  · rcases mem_cons.1 (hkeys.mem_iff.1 hk) with rfl | hk
    · rw [hround]
      simp [List.getD, h.cut _ howns]
    · exact h.base k hk
  · have hp := hkeys.map RoundKey.p
    rw [map_cons, hround] at hp
    exact (hp.append_right _).trans (List.Perm.cons _ h.busy)

/-- The next step commits: its fragment is at its step now, and no other
uncommitted round is of that fragment. -/
theorem pipelineOk_commit {busyFragments : List Nat} {publishing : Option PendingPublish}
    (hc : s.pipe.ready.find s.pipe.nextCommitT = some c) (hsettled : s.pipe.publishing = none)
    (hpipe : s'.pipe = { s.pipe with
      ready := s.pipe.ready.erase s.pipe.nextCommitT
      nextCommitT := cfg.schedule.stepAfter s.pipe.nextCommitT
      busyFragments, publishing })
    (hbusy : (s'.pipe.held = [c.round.p] ∧ busyFragments = s.pipe.busyFragments)
      ∨ s'.pipe.held = [] ∧ busyFragments = s.pipe.busyFragments.erase c.round.p)
    (hvers : s'.st.versions = s.st.versions.set c.round.p c.round.t)
    (hstep : s'.st.globalStep = c.round.t) : PipelineOk cfg s' := by
  have ht := (h.ready _ _ hc).1
  have hperm := keys_commit hc
  have hmem : c.round.key ∈ s.pipe.keys := hperm.mem_iff.2 (mem_cons_self ..)
  have hin := fun k (hk : k ∈ Pipeline.keys _) =>
    hperm.mem_iff.2 (mem_cons_of_mem _ hk)
  have hsteps := hperm.map RoundKey.t
  rw [map_cons] at hsteps
  have hnd := hsteps.nodup_iff.1 h.steps
  rw [nodup_cons] at hnd
  -- The fragments of the uncommitted rounds are distinct.
  have hheld : s.pipe.held = [] := by
    unfold held
    rw [hsettled]
    rfl
  have hps := h.busy
  rw [hheld, append_nil] at hps
  have hps' := (hperm.map RoundKey.p).symm.trans hps
  rw [map_cons] at hps'
  have hfrags := hps'.nodup_iff.2 h.free
  rw [nodup_cons] at hfrags
  have hp : c.round.p = cfg.schedule.fragmentForStep c.round.t := h.fragment _ hmem
  have hcont : c.round.t = cfg.schedule.stepAfter s.st.globalStep := by rw [ht, h.nextCommit]
  rw [hpipe] at hbusy
  refine .of_pipe (s := { s with
    st := { s.st with
      versions := s.st.versions.set c.round.p c.round.t
      globalStep := c.round.t } }) ⟨hvers, hstep⟩ hpipe { h with
    length := length_set.trans h.length, cut := fun q hq => ?_
    nextCommit := congrArg cfg.schedule.stepAfter ht.symm, nextLe := ?_
    steps := hnd.2
    contiguous := fun t => ?_
    fragment := fun k hk => h.fragment k (hin k hk), base := fun k hk => ?_
    ready := fun t c' hc' => h.ready t c' (find_erase_cases hc').2
    busy := ?_, free := ?_ }
  · rw [hcont, cfg.schedule.expectedVersion_stepAfter hq, ← hcont, ← hp, List.getElem?_set]
    split
    · next heq =>
      have hlt : q < s.st.versions.length := by
        rw [h.length, cfg.fragments]
        exact cfg.schedule.lt_of_owns hq
      simp [heq, hlt]
    · exact h.cut q hq
  · -- The next launch is past the committed step.
    have hlt : s.pipe.nextCommitT < s.pipe.nextT := by
      have := (h.contiguous c.round.t).1 (mem_map_of_mem hmem)
      rw [ht] at this
      exact this.2.2
    exact cfg.schedule.stepAfter_le h.nextOwned hlt
  · refine Iff.trans (b := t ∈ s.pipe.keys.map RoundKey.t ∧ t ≠ s.pipe.nextCommitT) ?_ ?_
    · rw [hsteps.mem_iff, mem_cons]
      have hkey : c.round.key.t = s.pipe.nextCommitT := ht
      rw [hkey] at hnd ⊢
      constructor
      · exact fun hmem' => ⟨.inr hmem', fun heq => hnd.1 (heq ▸ hmem')⟩
      · rintro ⟨heq | hmem', hne⟩
        · exact absurd heq hne
        · exact hmem'
    rw [h.contiguous t]
    constructor
    · rintro ⟨⟨hown, hle, hlt⟩, hne⟩
      exact ⟨hown, cfg.schedule.stepAfter_le hown (by omega), hlt⟩
    · rintro ⟨hown, hle, hlt⟩
      have := cfg.schedule.lt_stepAfter s.pipe.nextCommitT
      dsimp only at hle hlt
      exact ⟨⟨hown, by omega, hlt⟩, by omega⟩
  · have hother : c.round.p ≠ k.p := fun heq =>
      hfrags.1 (mem_map.2 ⟨k, hk, heq.symm⟩)
    exact (List.getElem?_set_ne hother).trans (h.base k (hin k hk))
  · rcases hbusy with ⟨hh, rfl⟩ | ⟨hh, rfl⟩
    · rw [hh]
      exact perm_append_comm.trans hps'
    · rw [hh, append_nil]
      refine (perm_cons c.round.p).1 (hps'.trans ?_)
      exact perm_cons_erase (hps'.mem_iff.1 (mem_cons_self ..))
  · rcases hbusy with ⟨-, rfl⟩ | ⟨-, rfl⟩
    · exact h.free
    · exact h.free.erase _

theorem pipelineOk_submit (hcut : SameCut s s') {prepared : Round × PreparedMerge}
    (hk : s.pipe.inflight[k]? = some r)
    (hprep : prepareRoundCompute cfg s.st.versions r = .ok prepared)
    (hpipe : s'.pipe = { s.pipe with
      inflight := s.pipe.inflight.eraseIdx k
      computing := s.pipe.computing ++ [prepared] }) : PipelineOk cfg s' := by
  obtain ⟨-, hmerge, hround⟩ := prepareRoundCompute_ok hprep
  have hkey : prepared.1.key = r.key := by
    rcases hround with hr | ⟨carried, hr, -⟩
    · rw [hr]
    · rw [hr]
      rfl
  refine .of_pipe hcut hpipe (h.moved ?_ (fun e he => ?_) h.ready)
  · rw [keys_eq, keys_eq]
    rw [map_append, map_singleton, hkey]
    refine List.Perm.trans ?_ (((perm_eraseIdx hk).map key).append_right _)
    simp only [append_assoc, map_cons, cons_append]
    exact (perm_middle.append_left _).trans perm_middle
  · rcases mem_snoc.1 he with he | rfl
    · exact h.merges e he
    · rw [hmerge]
      exact congrArg₂ PreparedMerge.mk (congrArg RoundKey.p hkey).symm
        (congrArg RoundKey.base hkey).symm

theorem PipelineOk.not_ready {e : Round × PreparedMerge} (he : e ∈ s.pipe.computing) :
    s.pipe.ready.find e.1.t = none := by
  by_contra hsome
  obtain ⟨c, hc⟩ := Option.ne_none_iff_exists'.1 hsome
  have hdup := h.steps
  rw [keys_eq, map_append, map_append] at hdup
  have hdis := (nodup_append.1 (nodup_append.1 hdup).2.1).2.2
  refine hdis _ (mem_map_of_mem (mem_map_of_mem he)) _ (mem_map_of_mem (mem_map_of_mem
      ((s.pipe.ready.mem_values_iff c).2 ⟨_, hc⟩))) ?_
  exact (h.ready _ _ hc).1.symm

theorem pipelineOk_computed (hcut : SameCut s s') {i : Nat} {merge : PreparedMerge}
    (hi : s.pipe.computing[i]? = some (round, merge)) (hpipe : s'.pipe = { s.pipe with
      computing := s.pipe.computing.eraseIdx i
      ready := s.pipe.ready.insert round.t ⟨round, merge, values⟩ }) : PipelineOk cfg s' := by
  have hmem := mem_of_getElem? hi
  refine .of_pipe hcut hpipe (h.moved ?_ (fun e he =>
    h.merges e (mem_of_mem_eraseIdx he)) fun t c hc => ?_)
  · rw [keys_eq, keys_eq]
    have hvals := (s.pipe.ready.entries_insert_new ⟨round, merge, values⟩
      (h.not_ready hmem)).map Prod.snd
    refine List.Perm.append_left _ ?_
    refine (List.Perm.append_left _ (hvals.map fun c => c.round.key)).trans ?_
    refine List.Perm.trans ?_ (((perm_eraseIdx hi).map fun e => e.1.key).append_right _)
    exact perm_middle
  · obtain ⟨rfl, rfl⟩ | ⟨-, hc⟩ := find_insert_cases hc
    · exact ⟨rfl, h.merges _ hmem⟩
    · exact h.ready t c hc

theorem pipelineOk_settle (hcut : SameCut s s') {p : Nat}
    (hpub : s.pipe.publishing = some ⟨t, p, true⟩) (hbusy : p ∈ s.pipe.busyFragments)
    (hpipe : s'.pipe = { s.pipe with
      publishing := none
      busyFragments := s.pipe.busyFragments.erase p }) : PipelineOk cfg s' := by
  have hb := h.busy
  unfold held at hb
  rw [hpub] at hb
  refine .of_pipe hcut hpipe { h with busy := ?_, free := h.free.erase _ }
  refine (append_nil _).symm ▸ (perm_cons p).1 ?_
  exact (perm_append_comm.symm.trans hb).trans (perm_cons_erase hbusy)

theorem key_restart (hk : s.pipe.inflight[k]? = some r) (expected : List Member) :
    (r.restart cfg s.st.versions expected clock).key = r.key := by
  have hmem : r.key ∈ s.pipe.keys := mem_keys_iff.2 ⟨r, mem_append_left _ (mem_of_getElem? hk), rfl⟩
  have hbase : s.st.versions[r.p]? = some r.baseVersion := h.base _ hmem
  unfold key restart
  simp [List.getD, hbase]

theorem pipelineOk_step (hs : PipeStep cfg s s') : PipelineOk cfg s' := by
  cases hs with
  | quiet rounds pipe cut _ => exact pipelineOk_inflight h cut pipe (map_key_quiet rounds)
  | launch _ free _ pipe cut _ =>
    refine pipelineOk_launch h cut ?_ free pipe
    obtain ⟨late, hlate, -⟩ := attachLate_spec _
    rw [hlate]
    rfl
  | restart round _ _ pipe cut _ =>
    exact pipelineOk_inflight h cut pipe (map_key_set round (key_restart h round _))
  | submit round _ prepare pipe cut _ => exact pipelineOk_submit h cut round prepare pipe
  | computed job pipe cut _ => exact pipelineOk_computed h cut job pipe
  | accept _ route pipe cut _ =>
    obtain ⟨l₁, r, l₂, hl, -, rfl⟩ := routePush_accepted route
    refine pipelineOk_inflight h cut pipe ?_
    rw [hl]
    exact map_key_replace (key_advanceFold _)
  | carry _ _ _ carry taken pipe cut _ =>
    obtain ⟨-, -, -, -, hmoved⟩ := carry_taken carry taken
    refine pipelineOk_inflight h cut pipe ?_
    rcases hmoved with ⟨l₁, r, l₂, hl, -, -, -, -, rfl⟩ | ⟨rfl, -⟩
    · rw [hl]
      exact map_key_replace rfl
    · rfl
  | commit next settled _ _ pipe versions globalStep _ =>
    rcases pipe with ⟨-, -, hpipe⟩ | ⟨-, hpipe⟩
    · exact pipelineOk_commit h next settled hpipe
        (.inl ⟨congrArg held hpipe, rfl⟩) versions globalStep
    · refine pipelineOk_commit h next settled hpipe (.inr ⟨?_, rfl⟩) versions globalStep
      rw [hpipe]
      rw [settled]
      rfl
  | settle written busy pipe cut _ => exact pipelineOk_settle h cut written busy pipe
  | written writing pipe cut _ =>
    refine .of_pipe cut pipe { h with busy := ?_ }
    have hb := h.busy
    unfold held at hb
    rw [writing] at hb
    exact hb

end

theorem pipelineOk_new {i : Start cfg} : PipelineOk cfg (.new cfg i) := by
  have hkeys : (new cfg i).pipe.keys = [] := rfl
  refine ⟨?_, fun p hp => ?_, rfl, le_rfl,
    cfg.schedule.ownsStep_stepAfter _, nodup_nil, fun t => ?_, nofun, nofun, nofun, nofun, .nil,
    nodup_nil⟩
  · simp [new, startVersions]
  · have hlt : p < cfg.layout.length := by
      rw [cfg.fragments]
      exact cfg.schedule.lt_of_owns hp
    simp [new, startVersions, hlt, hp]
  · constructor
    · rintro ⟨⟩
    · rintro ⟨-, hle, hlt⟩
      exact absurd hle (Nat.not_le_of_lt hlt)

/-- The steps that were merged, in order. -/
def mergedSteps (log : List LogEntry) : List Nat := log.filterMap fun e => match e with
    | .merged r => some r.t
    | _ => none

theorem mergedSteps_roundLog : mergedSteps s.roundLog = mergedSteps s.log := by
  unfold mergedSteps roundLog
  rw [filterMap_filter]
  congr 1
  funext e
  cases e <;> rfl

def InOrder (cfg : Config) (start : Nat) (s : Syncer) : Prop :=
  List.IsChain (fun t u => u = cfg.schedule.stepAfter t) (start :: mergedSteps s.log)
    ∧ (start :: mergedSteps s.log).getLast (cons_ne_nil _ _) = s.st.globalStep

theorem inOrder_step {start : Nat} (h : InOrder cfg start s)
    (hs : PipeStep cfg s s') : InOrder cfg start s' := by
  have hsame : ∀ es : List LogEntry, mergedSteps es = [] → s'.roundLog = s.roundLog ++ es →
      s'.st.globalStep = s.st.globalStep → InOrder cfg start s' := by
    intro es hes hlog hg
    have hm : mergedSteps s'.log = mergedSteps s.log := by
      rw [← mergedSteps_roundLog, ← mergedSteps_roundLog, hlog]
      show List.filterMap _ (_ ++ es) = _
      rw [filterMap_append]
      show _ ++ mergedSteps es = _
      rw [hes, append_nil]
      rfl
    unfold InOrder
    rw [hg]
    simp only [hm]
    exact h
  cases hs with
  | quiet _ _ cut log => exact hsame [] rfl (by simpa using log) cut.2
  | launch _ _ _ _ cut log => exact hsame _ rfl log cut.2
  | restart _ _ _ _ cut log => exact hsame _ rfl log cut.2
  | submit _ _ _ _ cut log => exact hsame [] rfl (by simpa using log) cut.2
  | computed _ _ cut log => exact hsame [] rfl (by simpa using log) cut.2
  | accept _ _ _ cut log => exact hsame _ rfl log cut.2
  | carry _ _ _ _ _ _ cut log => exact hsame _ rfl log cut.2
  | settle _ _ _ cut log => exact hsame [] rfl (by simpa using log) cut.2
  | written _ _ cut log => exact hsame [] rfl (by simpa using log) cut.2
  | commit _ _ contiguous _ _ _ globalStep log =>
    have hm : mergedSteps s'.log = mergedSteps s.log ++ [s'.st.globalStep] := by
      rw [← mergedSteps_roundLog, ← mergedSteps_roundLog, log, globalStep]
      exact filterMap_append
    unfold InOrder
    simp only [hm, ← cons_append]
    refine ⟨?_, ?_⟩
    · refine isChain_append.2 ⟨h.1, isChain_singleton _, ?_⟩
      intro x hx y hy
      have hlast := h.2
      rw [List.getLast?_eq_some_getLast (cons_ne_nil _ _), hlast] at hx
      cases hx
      cases hy
      rw [globalStep]
      exact contiguous
    · rw [getLast_append_singleton]

theorem inOrder_new {i : Start cfg} : InOrder cfg i.globalStep (.new cfg i) := by
  have hnil : mergedSteps (new cfg i).log = [] := by
    show mergedSteps (if i.globalStep = 0 then [] else [.durable i.globalStep]) = []
    split <;> rfl
  unfold InOrder
  simp only [hnil]
  exact ⟨isChain_singleton _, rfl⟩

theorem prepareRoundCompute_error {versions : List Nat}
    (hbase : versions[r.p]? = some r.baseVersion)
    (h : prepareRoundCompute cfg versions r = .error f) : f.ofCommits = false := by
  have hmerge : ∀ pushes f, prepareMergeScaled cfg r pushes = .error f → f.ofCommits = false := by
    intro pushes f hm
    unfold prepareMergeScaled at hm
    split at hm
    · cases hm
      rfl
    · repeat' split at hm
      all_goals first
        | cases hm; rfl
        | cases hm
  unfold prepareRoundCompute at h
  rw [if_neg (not_not.2 hbase)] at h
  dsimp only at h
  split at h
  · cases h
    rfl
  split at h
  · split at h <;> cases h
    next e he => exact hmerge _ _ he
  · split at h
    · cases h
      rfl
    split at h
    · next e he =>
      cases h
      repeat' split at he
      all_goals first
        | cases he; rfl
        | cases he
    · split at h <;> cases h
      rfl

theorem exposeRound_error {p : Nat} (hbusy : p ∈ s.pipe.busyFragments)
    (h : s.exposeRound n cfg t p room = .error (.failed f)) : f.ofCommits = false := by
  unfold exposeRound at h
  split at h
  · next e hpub =>
    cases h
    unfold publishRound at hpub
    split at hpub
    · unfold broadcastRound at hpub
      split at hpub <;> cases hpub
      next e' hpub' =>
      dsimp only [publish] at hpub'
      split at hpub'
      · cases hpub'
      · split at hpub' <;> cases hpub'
        rfl
    · cases hpub
  · next s₁ hpub =>
    have hpipe := (still_publishRound hpub).pipe
    unfold releaseBusy at h
    rw [hpipe, if_pos hbusy] at h
    cases h

theorem onPush_error {member : Member} {push : Push} {now : Nat}
    (he : s.onPush cfg member push now = .error (.failed f)) : f.ofCommits = false := by
  have hroute : ∀ s₁ : Syncer, s₁.route cfg member push = .error (.failed f) →
      f.ofCommits = false := by
    intro s₁ hr
    unfold route at hr
    split at hr
    · cases hr
    · split at hr <;> cases hr
      rfl
    · cases hr
  unfold onPush at he
  split at he
  · cases he
  split at he
  · cases he
    rfl
  dsimp only at he
  split at he
  · cases he
  unfold takePush at he
  split at he
  · exact hroute _ he
  · split at he
    · cases he
    · split at he
      · exact hroute _ he
      · cases he

section

variable (h : PipelineOk cfg s)
include h

theorem applyRoundCommit_succeeds (hc : s.pipe.ready.find s.pipe.nextCommitT = some c) :
    ∃ s', s.applyRoundCommit cfg c = .ok s' := by
  obtain ⟨ht, hm⟩ := h.ready _ _ hc
  have hmem : c.round.key ∈ s.pipe.keys := (keys_commit hc).mem_iff.2 (mem_cons_self ..)
  have hbase : s.st.versions[c.round.p]? = some c.round.baseVersion := h.base _ hmem
  have hcont : c.round.t = cfg.schedule.stepAfter s.st.globalStep := by rw [ht, h.nextCommit]
  unfold applyRoundCommit
  simp [← hcont, hbase, hm]

theorem busy_of_ready (hc : s.pipe.ready.find s.pipe.nextCommitT = some c) :
    c.round.p ∈ s.pipe.busyFragments := by
  have hmem : c.round.key ∈ s.pipe.keys := (keys_commit hc).mem_iff.2 (mem_cons_self ..)
  exact h.busy.mem_iff.1 (mem_append_left _ (mem_map.2 ⟨_, hmem, rfl⟩))

theorem apply_error {room : Nat → Group → Room} (he : s.apply n cfg room = .error (.failed f)) :
    f.ofCommits = false := by
  unfold apply at he
  split at he
  · cases he
  split at he
  · cases he
  next c hc =>
  obtain ⟨s₁, happ⟩ := applyRoundCommit_succeeds h hc
  have hbusy := busy_of_ready h hc
  rw [happ] at he
  obtain ⟨-, -, rfl⟩ := applyRoundCommit_ok happ
  dsimp only at he
  split at he
  · split at he
    · cases he
    · refine exposeRound_error ?_ he
      exact hbusy
  · refine exposeRound_error ?_ he
    exact hbusy

theorem settle_error (he : s.settle n cfg room = .error (.failed f)) : f.ofCommits = false := by
  unfold settle at he
  split at he
  · next t p w todo hpub _ =>
    split at he
    · have hheld : p ∈ s.pipe.held := by
        unfold held
        rw [hpub]
        exact mem_singleton_self p
      refine exposeRound_error ?_ he
      exact h.busy.mem_iff.1 (mem_append_right _ hheld)
    · cases he
  · cases he

theorem act_error {now : Nat} {submitted : Bool}
    (he : s.act cfg k now submitted clock = .error (.failed f)) : f.ofCommits = false := by
  unfold act at he
  split at he
  · cases he
  next r hk =>
  split at he
  · cases he
  · cases he
  split at he <;> cases he
  next e hprep =>
  refine prepareRoundCompute_error ?_ hprep
  have hmem : r.key ∈ s.pipe.keys := mem_keys_iff.2 ⟨r, mem_append_left _ (mem_of_getElem? hk), rfl⟩
  exact h.base _ hmem

theorem computed_error {i : Nat} (he : s.computed i values = .error (.failed f)) :
    f.ofCommits = false := by
  unfold computed at he
  split at he
  · cases he
  next round merge hi =>
  have hmem := mem_of_getElem? hi
  have hmerge : merge = ⟨round.p, round.baseVersion⟩ := h.merges _ hmem
  have hkey : round.key ∈ s.pipe.keys := by
    refine mem_keys_iff.2 ⟨round, ?_, rfl⟩
    exact mem_append_right _ (mem_append_left _ (mem_map.2 ⟨_, hmem, rfl⟩))
  have hbase : s.st.versions[round.p]? = some round.baseVersion := h.base _ hkey
  have hnew : s.pipe.ready.contains round.t = false :=
    (contains_eq_false_iff _ _).2 (h.not_ready hmem)
  rw [hmerge, if_neg (by simp), if_neg (by simp [hbase]), if_neg (by simp [hnew])] at he
  split at he
  · cases he
  · cases he

/-- No check on steps, bases or busy fragments ever fails. -/
theorem exec_error {op : Op} (he : s.exec n cfg op = .error (.failed f)) : f.ofCommits = false := by
  have hdisabled : ∀ {P : Prop} [Decidable P] {x : Syncer},
      (if P then Except.ok x else .error Stop.disabled) ≠ Except.error (.failed f) := by
    intro P _ x hx
    split at hx <;> cases hx
  cases op with dsimp only [exec] at he
  | turn i =>
    split at he
    · cases he
    next w _ _ =>
    cases w with
    | apply => exact apply_error h he
    | act k now submitted => exact act_error h he
    | init =>
      dsimp only [perform, beginTraining] at he
      split at he <;> cases he
    | sendNext group p =>
      dsimp only [perform, sendNext] at he
      split at he
      · cases he
      · split at he <;> cases he
    | begin group =>
      dsimp only [perform, beginRecovery] at he
      split at he <;> cases he
    | start group tail =>
      dsimp only [perform, start] at he
      split at he <;> cases he
    | restored member held =>
      dsimp only [perform, restored] at he
      repeat' split at he
      all_goals cases he
    | _ => cases he
  | wake w =>
    split at he
    · cases w with
      | hello | disconnected => exact absurd he hdisabled
      | _ => cases he
    · cases w with
      | computed i values => exact computed_error h he
      | push member push now => exact onPush_error he
      | hello | disconnected => exact absurd he hdisabled
      | restored member held =>
        dsimp only [wake] at he
        split at he <;> cases he
      | _ => cases he
    · cases he
  | settle room => exact settle_error h he
  | unregister member => exact absurd he hdisabled
  | pop | handOver | fail =>
    dsimp only [exec, forward] at he
    split at he <;> cases he
  | orphan i delivered =>
    dsimp only [exec, orphan] at he
    split at he <;> cases he
  | written =>
    dsimp only [exec, written] at he
    split at he <;> cases he
  | register member now ext => cases he

end

/-- Strict contiguous commits, in one state. -/
structure ContiguousCommits (n : Numerics) (cfg : Config) (start : Nat) (s : Syncer) : Prop where
  /-- At most one uncommitted round per fragment. -/
  oneRound : (s.pipe.rounds.map Round.p).Nodup
  /-- The committed steps are the shard's own, in order, none skipped. -/
  inOrder : InOrder cfg start s
  versions : ∀ p, cfg.schedule.owns p = true →
    s.st.version p = cfg.schedule.expectedVersion p s.st.globalStep
  /-- The checks on steps, bases and busy fragments never fail. -/
  noFailure : ∀ op f, s.exec n cfg op = .error (.failed f) → f.ofCommits = false

section

variable {allowed : Syncer → Op → Bool} {i : Start cfg} (h : (syncer n cfg i allowed).Reachable s)
include h

theorem pipelineOk_reachable : PipelineOk cfg s := by
  refine System.invariant (P := PipelineOk cfg) ?_ ?_ h
  · rintro s ⟨-, rfl⟩
    exact pipelineOk_new
  · rintro s s' - hok ⟨op, -, hexec⟩
    exact pipelineOk_step hok (exec_steps hexec).1

theorem inOrder_reachable : InOrder cfg i.globalStep s := by
  refine System.invariant (P := InOrder cfg i.globalStep) ?_ ?_ h
  · rintro s ⟨-, rfl⟩
    exact inOrder_new
  · rintro s s' - hok ⟨op, -, hexec⟩
    exact inOrder_step hok (exec_steps hexec).1

end

theorem PipelineOk.nodup_fragments (h : PipelineOk cfg s) : (s.pipe.rounds.map p).Nodup := by
  have hkeys := (nodup_append.1 (h.busy.nodup_iff.2 h.free)).1
  unfold Pipeline.keys at hkeys
  rwa [map_map] at hkeys

/-- In every state of every run the rounds commit strictly in the order of
the shard's steps, at most one round of a fragment is uncommitted, every
version is the one the step determines, and no check on a base version
fails. -/
theorem commits_contiguous {i : Start cfg} (h : (syncer n cfg i anyOp).Reachable s) :
    ContiguousCommits n cfg i.globalStep s := by
  have hok := pipelineOk_reachable h
  refine ⟨hok.nodup_fragments, inOrder_reachable h, fun p hp => ?_, fun op f => exec_error hok⟩
  unfold GlobalState.version
  simp [List.getD, hok.cut p hp]

section Sample

def sampleConfig : Config where
  schedule := ⟨0, 2, 2, by decide, by decide⟩
  layout := [⟨[1], .avg⟩, ⟨[1], .avg⟩]
  totalSteps := 4
  learners := 2
  quorum := 2
  graceMs := 0
  pipeline := 2
  quorumTimeout := 10
  maxBaseLag := some 2
  membership := .default
  learnerWeight := .equal
  weightedFold := .streaming
  deltaCorrection := false
  expertTokenWeights := false
  policySweepFragments := none
  checkpointPath := false
  checkpointEvery := 0
  asyncCheckpoint := false
  inlineResend := false
  inlineBroadcast := false
  bcastDeltaFullEvery := none
  maxDonorTries := 1
  donorTimeout := 1
  fragments := rfl

def sampleStart : Start sampleConfig where
  globalStep := 0
  params := [[0], [0]]
  membership := .new .default 2
  membershipRecord := none
  owned := .inl rfl
  shapes := rfl
  configured := rfl
  nobody := ⟨rfl, rfl⟩

def samplePush (m : Member) (t p base attempt : Nat) : Push where
  learnerId := m.learnerId
  fragmentId := p
  globalStep := t
  roundAttempt := attempt
  baseVersion := base
  localStep := 1
  cSteps := 1
  cTokens := 1
  gradient := 1
  tensorScales := none

def sampleOpening : List (Op × Nat) :=
  [(.register ⟨0, 1⟩ 0 ⟨none, false⟩, 0), (.register ⟨1, 1⟩ 0 ⟨none, false⟩, 0),
   (.wake (.hello ⟨⟨0, 1⟩, 0⟩), 0), (.wake (.hello ⟨⟨1, 1⟩, 1⟩), 0), (.turn {}, 40)]

/-- Step 2 gathers and computes first, and commits second. -/
def sampleOvertaking : List (Op × Nat) := sampleOpening ++
  [(.wake (.push ⟨0, 1⟩ (samplePush ⟨0, 1⟩ 2 1 0 1) 1), 40),
   (.wake (.push ⟨1, 1⟩ (samplePush ⟨1, 1⟩ 2 1 0 1) 1), 40),
   (.wake (.push ⟨0, 1⟩ (samplePush ⟨0, 1⟩ 1 0 0 1) 1), 40),
   (.wake (.push ⟨1, 1⟩ (samplePush ⟨1, 1⟩ 1 0 0 1) 1), 40),
   (.wake (.computed 0 [1]), 40), (.wake (.computed 0 [1]), 40)]

def sampleCommitted : Syncer :=
  (Syncer.new sampleConfig sampleStart).ending bitNumerics sampleConfig anyOp sampleOvertaking

theorem commits_contiguous_sample : mergedSteps sampleCommitted.log = [1, 2]
      ∧ ContiguousCommits bitNumerics sampleConfig 0 sampleCommitted :=
  ⟨by decide +kernel, commits_contiguous (i := sampleStart)
    (reachable_ending (reachable_new rfl anyOp) (by decide +kernel))⟩

end Sample

end Syncer

end Yeto.Server
