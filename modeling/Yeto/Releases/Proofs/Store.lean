/-
The store of a run of releases.

Every record names a base of a smaller number, so a directory put into the
store under the next number changes no older chain (`StoreOk.frame`,
`StoreOk.extend`), and directories that the newest releases do not lead to
can be removed (`StoreOk.removeTrees`).
-/
import Yeto.Releases.Model
import Yeto.Lib.Fence

namespace Yeto.Releases

open Lib List SortedMap Store PolicyRelease

variable {r : PolicyRelease}

/-- The chain of a release is in the store: directories and records down to
a full release. -/
inductive Rebuildable (s : Store) : Name → Prop
  | full {n : Name} {d : Directory} {r : PolicyRelease} :
      s.directories.find n = some d → d.whole = true → d.record = some r →
      r.delta = none → Rebuildable s n
  | delta {n : Name} {d : Directory} {r : PolicyRelease} {b : Delta} :
      s.directories.find n = some d → d.whole = true → d.record = some r →
      r.delta = some b → Rebuildable s b.basePath → Rebuildable s n

section Stores

variable {s s' : Store} {n m : Name}

theorem baseOf_congr (h : s'.directories.find n = s.directories.find n) :
    s'.baseOf n = s.baseOf n := by
  unfold baseOf recordAt
  dsimp only
  rw [h]

theorem baseOf_eq {d : Directory} (hfind : s.directories.find n = some d)
    (hrec : d.record = some r) : s.baseOf n = r.delta.map Delta.basePath := by
  unfold baseOf recordAt
  dsimp only
  rw [hfind, Option.bind_some, hrec]
  rfl

theorem Rebuildable.find (h : Rebuildable s n) : ∃ d, s.directories.find n = some d := by
  cases h with
  | full hfind => exact ⟨_, hfind⟩
  | delta hfind => exact ⟨_, hfind⟩

theorem Rebuildable.mem (h : Rebuildable s n) : n ∈ s.directories.keys := (mem_keys_iff ..).2 h.find

/-- What a chain needs are the directories it leads through. -/
theorem Rebuildable.congr (h : Rebuildable s n) (hsame : ∀ m, Leads s.baseOf n m →
      s'.directories.find m = s.directories.find m) : Rebuildable s' n := by
  induction h with
  | @full n d r hfind hwhole hrec hdelta =>
    exact .full ((hsame n .refl).trans hfind) hwhole hrec hdelta
  | @delta n d r b hfind hwhole hrec hdelta _ ih =>
    have hbase : s.baseOf n = some b.basePath := by
      rw [baseOf_eq hfind hrec, hdelta]
      rfl
    exact .delta ((hsame n .refl).trans hfind) hwhole hrec hdelta
      (ih fun m hm => hsame m (.head hbase hm))

theorem process_baseOf (p : Process) (s : Store) : p.baseOf s = p.bases := by
  funext n
  unfold Process.baseOf
  cases p.bases n <;> rfl

theorem remember_eq (p : Process) (s : Store) (kept : List Name) : p.remember s kept = p := by
  unfold Process.remember
  rw [process_baseOf]
  congr 1
  funext n
  split <;> rfl

theorem find_removeTrees (old : List Name) (p : Process) (s : Store) (n : Name) :
    (removeTrees old p s).2.directories.find n
      = if n ∈ old then none else s.directories.find n := by
  unfold removeTrees
  rw [find_filter]
  split <;> next h => cases s.directories.find n <;> simp [h]

end Stores

/-- The store of a run, next to the releases that LATEST has named. -/
structure StoreOk (cfg : Config) (s : Store) (released : List PolicyRelease) : Prop where
  latest : s.latest = released.getLast?
  seqs : released.map PolicyRelease.seq = List.range' 1 released.length
  paths : ∀ r ∈ released, r.path.seq = r.seq
  directories : ∀ n ∈ s.directories.keys,
    n ∈ released.map PolicyRelease.path ∨ n.seq = released.length + 1
  /-- A record names a base of a smaller number. -/
  down : ∀ n b, s.baseOf n = some b → b.seq < n.seq
  rebuildable : ∀ n ∈ (released.map PolicyRelease.path).rtake cfg.keep, Rebuildable s n

section StoreOk

variable {cfg : Config} {s s' : Store} {released : List PolicyRelease}

section

variable (h : StoreOk cfg s released)
include h

theorem StoreOk.seq_paths : (released.map path).map Name.seq = range' 1 released.length := by
  rw [map_map, ← h.seqs]
  exact map_congr_left h.paths

theorem StoreOk.pairwise : (released.map path).Pairwise fun a b => a.seq < b.seq := by
  rw [← pairwise_map (f := Name.seq) (R := (· < ·)), h.seq_paths]
  exact pairwise_lt_range'

theorem StoreOk.seq_le {n : Name} (hn : n ∈ released.map path) :
    1 ≤ n.seq ∧ n.seq ≤ released.length := by
  have := mem_map_of_mem (f := Name.seq) hn
  rw [h.seq_paths, mem_range'_1] at this
  omega

theorem StoreOk.seq_nextName (version : Nat) :
    (nextName s.latest version).seq = released.length + 1 := by
  unfold nextName
  rw [h.latest]
  rcases eq_nil_or_concat released with rfl | ⟨l, r, rfl⟩
  · rfl
  · have hseq : r.seq = (l.concat r).length := by
      have := h.seqs
      rw [concat_eq_append, map_append, length_append, length_singleton, range'_concat] at this
      have := append_inj_right' this rfl
      rw [map_singleton, singleton_inj] at this
      rw [this, length_concat]
      omega
    rw [concat_eq_append, getLast?_concat] at *
    dsimp only [Option.map_some, Option.getD_some]
    rw [hseq]

theorem StoreOk.nextName_notMem (version : Nat) :
    nextName s.latest version ∉ released.map path := by
  intro hmem
  have := (h.seq_le hmem).2
  rw [h.seq_nextName] at this
  omega

theorem StoreOk.leads_seq {n m : Name} (hpath : Leads s.baseOf n m) :
    m.seq ≤ n.seq := hpath.rank_le h.down

theorem StoreOk.frame {name : Name} (hname : name.seq = released.length + 1)
    (hlatest : s'.latest = s.latest)
    (hsame : ∀ n ≠ name, s'.directories.find n = s.directories.find n)
    (hbase : ∀ b, s'.baseOf name = some b → b.seq < name.seq) : StoreOk cfg s' released := by
  refine ⟨hlatest.trans h.latest, h.seqs, h.paths, fun n hn => ?_, fun n b hb => ?_, fun n hn => ?_⟩
  · by_cases heq : n = name
    · exact .inr (heq ▸ hname)
    · rw [mem_keys_iff, hsame n heq, ← mem_keys_iff] at hn
      exact h.directories n hn
  · by_cases heq : n = name
    · subst heq
      exact hbase b hb
    · rw [baseOf_congr (hsame n heq)] at hb
      exact h.down n b hb
  · refine (h.rebuildable n hn).congr fun m hm => hsame m ?_
    rintro rfl
    have hle := h.leads_seq hm
    have := (h.seq_le (mem_of_mem_drop hn)).2
    omega

theorem StoreOk.extend (hpath : r.path.seq = released.length + 1) (hseq : r.seq = r.path.seq)
    (hlatest : s'.latest = some r) (hself : s'.directories.find r.path = some ⟨true, some r⟩)
    (hsame : ∀ n ≠ r.path, s'.directories.find n = s.directories.find n)
    (hdirs : ∀ n ∈ s.directories.keys, n ∈ released.map path ∨ n = r.path)
    (hdelta : ∀ b, r.delta = some b → b.basePath.seq < r.path.seq ∧ Rebuildable s b.basePath) :
    StoreOk cfg s' (released ++ [r]) := by
  have hkeep := cfg.keep_pos
  -- A chain that starts below the new directory stays below it.
  have hold : ∀ n, n.seq < r.path.seq → Rebuildable s n → Rebuildable s' n := by
    intro n hn hreb
    refine hreb.congr fun m hm => hsame m ?_
    rintro rfl
    have := h.leads_seq hm
    omega
  refine ⟨?_, ?_, fun x hx => ?_, fun n hn => ?_, fun n b hb => ?_, fun n hn => ?_⟩
  · rw [getLast?_concat]
    exact hlatest
  · rw [map_append, h.seqs, length_append, length_singleton,
      range'_concat, map_singleton, hseq, hpath, Nat.one_mul, Nat.add_comm 1]
  · rcases mem_snoc.1 hx with hx | rfl
    · exact h.paths x hx
    · exact hseq.symm
  · left
    rw [map_append, mem_append, map_singleton, mem_singleton]
    by_cases heq : n = r.path
    · exact .inr heq
    · rw [mem_keys_iff, hsame n heq, ← mem_keys_iff] at hn
      exact hdirs n hn
  · by_cases heq : n = r.path
    · subst heq
      rw [baseOf_eq hself rfl] at hb
      obtain ⟨d, hd, rfl⟩ := Option.map_eq_some_iff.1 hb
      exact (hdelta d hd).1
    · rw [baseOf_congr (hsame n heq)] at hb
      exact h.down n b hb
  · obtain ⟨k, hk⟩ : ∃ k, cfg.keep = k + 1 := ⟨cfg.keep - 1, by omega⟩
    rw [map_append, map_singleton, hk, rtake_concat_succ, mem_append, mem_singleton] at hn
    rcases hn with hn | rfl
    · have hmem : n ∈ (released.map path).rtake cfg.keep := by
        exact (drop_sublist_drop_left _ (by omega)).subset hn
      have := (h.seq_le (mem_of_mem_drop hn)).2
      exact hold n (by omega) (h.rebuildable n hmem)
    · cases hd : r.delta with
      | none => exact .full hself rfl rfl hd
      | some b =>
        obtain ⟨hlt, hreb⟩ := hdelta b hd
        exact .delta hself rfl rfl hd (hold _ hlt hreb)

end

theorem StoreOk.removeTrees (h : StoreOk cfg s released) {old : List Name} (p : Process)
    (hold : ∀ n ∈ old, ∀ m ∈ (released.map path).rtake cfg.keep, ¬ Leads s.baseOf m n) :
    StoreOk cfg (removeTrees old p s).2 released := by
  have hfind := find_removeTrees old p s
  have hkeys : ∀ n ∈ (Releases.removeTrees old p s).2.directories.keys,
      n ∉ old ∧ n ∈ s.directories.keys := by
    intro n hn
    rw [mem_keys_iff, hfind] at hn
    split at hn
    · obtain ⟨d, hd⟩ := hn
      cases hd
    · next hnot => exact ⟨hnot, (mem_keys_iff ..).2 hn⟩
  refine ⟨h.latest, h.seqs, h.paths, fun n hn => ?_, fun n b hb => ?_, fun n hn => ?_⟩
  · exact h.directories n (hkeys n hn).2
  · by_cases hmem : n ∈ old
    · have hnone : (Releases.removeTrees old p s).2.baseOf n = none := by
        unfold baseOf recordAt
        dsimp only
        rw [hfind, if_pos hmem]
        rfl
      rw [hnone] at hb
      cases hb
    · rw [baseOf_congr ((hfind n).trans (if_neg hmem))] at hb
      exact h.down n b hb
  · refine (h.rebuildable n hn).congr fun m hm => ?_
    rw [hfind, if_neg fun hmem => hold m hmem n hn hm]

end StoreOk

end Yeto.Releases
