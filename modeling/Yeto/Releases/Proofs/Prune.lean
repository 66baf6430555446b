/-
Pruning keeps every chain that is needed.

A prune is right when the process's list ends in the newest releases
(`rtake_names`) and the process knows the base of every delta it comes by
(`orderly`). A restarted trainer finds no record where `_recorded_base` looks,
and prunes the bases of deltas it did not write. A directory left by an attempt
that never became LATEST counts as one of the newest, too.
-/
import Yeto.Releases.Proofs.Store
import Yeto.Lib.Guards
import Mathlib.Data.List.Sort

namespace Yeto.Releases

open Lib List SortedMap Option Store World PolicyRelease

variable {b m n : Name} {files : Nat} {stop : Option Stage} {r : PolicyRelease}

def World.paths (w : World) : List Name := w.released.map PolicyRelease.path

def World.newest (cfg : Config) (w : World) : List Name := w.paths.rtake cfg.keep

/-- The directories that a release call has to keep, apart from its own. -/
def World.needed (cfg : Config) (w : World) (c : Call) : List Name :=
  let start := w.paths.rtake (cfg.keep - 1) ++ ((c.delta w.base).map Delta.basePath).toList
  closeOver w.store.baseOf (weight Name.seq start) start start

/-- A release call of a process that can prune right: no call after one that
raised with LATEST replaced; no directory of an earlier attempt under another
name; every delta that has to stay was written by this process. A call for
the release that LATEST names is not made in the middle of a prune. -/
def orderly (cfg : Config) (w : World) : Op → Bool
  | .restart _ _ => true
  | .release c _ =>
    !w.late && if c.current w.store.latest then w.tidy
      else
        decide (∀ n ∈ w.store.listedNames ++ w.process.names.getD [],
          n ∈ w.paths ∨ n = nextName w.store.latest c.version)
        && decide (∀ n ∈ w.needed cfg c, w.process.bases n = w.store.baseOf n)

/-- What a process remembers is so in the store. -/
structure ProcessOk (s : Store) (released : List PolicyRelease) (p : Process) : Prop where
  bases : ∀ n b, p.bases n = some b → n ∈ released.map PolicyRelease.path ∧ s.baseOf n = some b
  written : ∀ r, p.written = some r → s.latest = some r

structure WorldOk (cfg : Config) (w : World) : Prop where
  store : StoreOk cfg w.store w.released
  process : ProcessOk w.store w.released w.process
  chain : w.late = false → ∀ c r, w.chain = some c → c.last = some r → w.store.latest = some r
  names : w.late = false → ∀ l, w.process.names = some l → l.Pairwise (fun a b => a.seq < b.seq)
    ∧ ∀ n ∈ w.store.directories.keys, n ∈ w.paths → n ∈ l
  tidy : w.tidy = true → ∀ n ∈ w.store.directories.keys, n ∈ w.paths →
    ∃ m ∈ w.newest cfg, Leads w.store.baseOf m n

section Release

variable {cfg : Config} {w : World} {c : Call} {s : Store}

theorem ProcessOk.latestForRelease {released : List PolicyRelease} {p : Process}
    (h : ProcessOk s released p) (cfg : Config) : p.latestForRelease cfg s = s.latest := by
  unfold Process.latestForRelease
  cases hw : p.written with
  | none => rfl
  | some known =>
    rw [h.written known hw]
    dsimp only
    split
    · rfl
    · split
      · rfl
      · split <;> rfl

def World.record (w : World) (c : Call) : PolicyRelease :=
  c.record (nextName w.store.latest c.version) w.base

/-- The store with it, before the prune. -/
def World.stored (w : World) (c : Call) : Store :=
  (w.store.putDirectory (w.record c).path).putFiles (w.record c) 2

theorem find_stored : (w.stored c).directories.find n
      = if n = (w.record c).path then some ⟨true, some (w.record c)⟩
        else w.store.directories.find n := by
  show ((w.store.directories.insert (w.record c).path ⟨true, none⟩).insert
    (w.record c).path ⟨true, some (w.record c)⟩).find n = _
  rw [find_insert, find_insert]
  split <;> rfl

theorem WorldOk.base (h : WorldOk cfg w) (hlate : w.late = false) (hbase : w.base = some r) :
    w.store.latest = some r := by
  obtain ⟨chain, hchain, hlast⟩ := bind_eq_some_iff.1 hbase
  obtain ⟨-, hlast⟩ := ite_none_left_eq_some.1 hlast
  exact h.chain hlate chain r hchain hlast

theorem WorldOk.delta (h : WorldOk cfg w) (hlate : w.late = false) {b : Delta}
    (hdelta : c.delta w.base = some b) : b.basePath ∈ w.newest cfg := by
  obtain ⟨-, hdelta⟩ := ite_none_right_eq_some.1 hdelta
  obtain ⟨r, hr, rfl⟩ := map_eq_some_iff.1 hdelta
  have hlatest := h.base hlate hr
  rw [h.store.latest] at hlatest
  obtain ⟨l, hl⟩ := getLast?_eq_some_iff.1 hlatest
  unfold newest paths
  rw [hl, map_append]
  exact mem_rtake_append_cons [] _ cfg.keep_pos

theorem WorldOk.seq_record (h : WorldOk cfg w) (c : Call) :
    (w.record c).path.seq = w.released.length + 1 := h.store.seq_nextName c.version

theorem WorldOk.stored (h : WorldOk cfg w) (hlate : w.late = false)
    (hdirs : ∀ n ∈ w.store.directories.keys, n ∈ w.paths ∨ n = (w.record c).path) :
    StoreOk cfg (w.stored c) (w.released ++ [w.record c]) := by
  have hseq := h.seq_record c
  refine h.store.extend hseq rfl rfl ?_ (fun n hn => ?_) hdirs fun b hb => ?_
  · rw [find_stored, if_pos rfl]
  · rw [find_stored, if_neg hn]
  · have hnewest := h.delta hlate hb
    refine ⟨?_, h.store.rebuildable _ hnewest⟩
    have := (h.store.seq_le (mem_of_mem_drop hnewest)).2
    omega

def World.allNames (w : World) (c : Call) : List Name :=
  (w.process.names.getD w.store.listedNames).filter
    (fun n => decide (n ≠ (w.record c).path)) ++ [(w.record c).path]

/-- The process with the new release in its memory. -/
def World.named (w : World) (c : Call) : Process :=
  { w.process with written := none, names := none }.commit
    (w.process.names.getD w.store.listedNames) (w.record c)

/-- Everything that the process has listed, or lists now, is a release or has
the name of the next one, and the listed names are in order. -/
structure Listed (w : World) (c : Call) : Prop where
  directories : ∀ n ∈ w.store.directories.keys, n ∈ w.paths ∨ n = (w.record c).path
  sub : ∀ n ∈ w.process.names.getD w.store.listedNames, n ∈ w.paths ∨ n = (w.record c).path
  pairwise : (w.process.names.getD w.store.listedNames).Pairwise fun a b => a.seq < b.seq
  all : ∀ n ∈ w.store.directories.keys, n ∈ w.paths → n ∈ w.process.names.getD w.store.listedNames

theorem nodup_of_seq_lt {l : List Name} (h : l.Pairwise fun a b => a.seq < b.seq) : l.Nodup := by
  refine h.imp ?_
  rintro a _ hlt rfl
  exact lt_irrefl _ hlt

theorem seq_le_of_lt {a : Name} (h : a < b) : a.seq ≤ b.seq := by
  rcases Prod.Lex.lt_iff.1 h with h | h
  · exact Nat.le_of_lt h
  · exact le_of_eq h.1

theorem WorldOk.listed (h : WorldOk cfg w) (hlate : w.late = false)
    (hnames : ∀ n ∈ w.store.listedNames ++ w.process.names.getD [],
      n ∈ w.paths ∨ n = (w.record c).path) : Listed w c := by
  have hdirs : ∀ n ∈ w.store.directories.keys,
      n ∈ w.paths ∨ n = (w.record c).path := fun n hn => hnames n (mem_append_left _ hn)
  cases hl : w.process.names with
  | some l =>
    obtain ⟨hsorted, hall⟩ := h.names hlate l hl
    rw [hl] at hnames
    refine ⟨hdirs, ?_, ?_, ?_⟩ <;> rw [hl]
    · exact fun n hn => hnames n (mem_append_right _ hn)
    · exact hsorted
    · exact hall
  | none =>
    refine ⟨hdirs, ?_, ?_, ?_⟩ <;> rw [hl]
    · exact hdirs
    · -- Of the listed names no two have the same number.
      have hseqs : ((w.paths ++ [(w.record c).path]).map Name.seq).Nodup := by
        rw [map_append, paths, h.store.seq_paths, map_singleton, h.seq_record,
          Nat.add_comm, ← range'_1_concat]
        exact nodup_range'
      have hinj : ∀ a ∈ w.store.directories.keys,
          ∀ b ∈ w.store.directories.keys, a < b → a.seq < b.seq := by
        intro a ha b hb hlt
        refine Nat.lt_of_le_of_ne (seq_le_of_lt hlt) fun heq => ?_
        exact hlt.ne (inj_on_of_nodup_map hseqs (mem_snoc.2 (hdirs a ha))
          (mem_snoc.2 (hdirs b hb)) heq)
      exact w.store.directories.sorted_keys.imp_of_mem fun ha hb hlt =>
        hinj _ ha _ hb hlt
    · exact fun n hn _ => hn

theorem newest_succ : ((w.released ++ [w.record c]).map path).rtake cfg.keep
      = w.paths.rtake (cfg.keep - 1) ++ [(w.record c).path] := by
  have hkeep := cfg.keep_pos
  obtain ⟨k, hk⟩ : ∃ k, cfg.keep = k + 1 := ⟨cfg.keep - 1, by omega⟩
  rw [map_append, map_singleton, hk, rtake_concat_succ]
  rfl

theorem stored_baseOf (w : World) (c : Call) (n : Name) : (w.stored c).baseOf n
      = if n = (w.record c).path
        then (w.record c).delta.map Delta.basePath else w.store.baseOf n := by
  split
  · next heq =>
    subst heq
    refine baseOf_eq (d := ⟨true, some (w.record c)⟩) ?_ rfl
    rw [find_stored, if_pos rfl]
  · next hne =>
    refine baseOf_congr ?_
    rw [find_stored, if_neg hne]

theorem raised_late {p : Process} (hs : StoreOk cfg s (w.released ++ [w.record c]))
    (hbases : ∀ n b, p.bases n = some b → n ∈ (w.released ++ [w.record c]).map path
        ∧ s.baseOf n = some b) (hwritten : p.written = none) :
    WorldOk cfg ⟨s, p, w.chain, w.released ++ [w.record c], true, false⟩ where
  store := hs
  process := ⟨hbases, fun r hr => by rw [hwritten] at hr; cases hr⟩
  chain := nofun
  names := nofun
  tidy := nofun

section

variable (h : WorldOk cfg w)
include h

theorem WorldOk.rtake_names (hlisted : Listed w c) :
    (w.allNames c).rtake cfg.keep = ((w.released ++ [w.record c]).map path).rtake cfg.keep := by
  have hkeep := cfg.keep_pos
  rw [newest_succ]
  obtain ⟨k, hk⟩ : ∃ k, cfg.keep = k + 1 := ⟨cfg.keep - 1, by omega⟩
  unfold World.allNames
  rw [hk, rtake_concat_succ, Nat.add_sub_cancel]
  congr 1
  have hnot := h.store.nextName_notMem c.version
  refine rtake_of_sublist ?_ (nodup_of_seq_lt h.store.pairwise) ?_
  · refine sublist_of_subperm_of_pairwise (List.Nodup.subperm ?_ ?_)
      (hlisted.pairwise.filter _) h.store.pairwise
    · exact nodup_of_seq_lt (hlisted.pairwise.filter _)
    · intro n hn
      obtain ⟨hn, hne⟩ := mem_filter.1 hn
      exact (hlisted.sub n hn).resolve_right (of_decide_eq_true hne)
  · intro n hn
    have hmem : n ∈ w.newest cfg := by exact (drop_sublist_drop_left _ (by omega)).subset hn
    have hpath : n ∈ w.paths := mem_of_mem_drop hn
    refine mem_filter.2 ⟨hlisted.all n (h.store.rebuildable n hmem).mem hpath, ?_⟩
    refine decide_eq_true ?_
    rintro rfl
    exact hnot hpath

theorem WorldOk.named_bases (n : Name) : (w.named c).bases n = if n = (w.record c).path
        then (w.record c).delta.map Delta.basePath else w.process.bases n := by
  have hnone : w.process.bases (w.record c).path = none := by
    cases hb : w.process.bases (w.record c).path with
    | none => rfl
    | some b => exact absurd (h.process.bases _ b hb).1 (h.store.nextName_notMem c.version)
  unfold named Process.commit
  cases (w.record c).delta with
  | none =>
    dsimp only
    split
    · next heq => rw [heq, hnone]; rfl
    · rfl
  | some d => rfl

/-- The process knows no base that is not in the store. -/
theorem WorldOk.named_sound (hb : (w.named c).bases n = some b) :
    (w.stored c).baseOf n = some b := by
  rw [h.named_bases] at hb
  rw [stored_baseOf]
  split
  · next heq =>
    rw [if_pos heq] at hb
    exact hb
  · next hne =>
    rw [if_neg hne] at hb
    exact (h.process.bases n b hb).2

theorem WorldOk.leads_store (hn : n.seq ≤ w.released.length)
    (hpath : Leads (w.stored c).baseOf n m) : Leads w.store.baseOf n m := by
  have hnext := h.seq_record c
  induction hpath with
  | refl => exact .refl
  | @tail x y _ hstep ih =>
    refine ih.tail ?_
    have hle := h.store.leads_seq ih
    rw [stored_baseOf, if_neg (by rintro rfl; omega)] at hstep
    exact hstep

/-- On every chain that has to stay the process knows the bases. -/
theorem WorldOk.named_complete (hlate : w.late = false)
    (hknown : ∀ n ∈ w.needed cfg c, w.process.bases n = w.store.baseOf n)
    (hn : n ∈ ((w.released ++ [w.record c]).map path).rtake cfg.keep)
    (hpath : Leads (w.stored c).baseOf n m) : (w.named c).bases m = (w.stored c).baseOf m := by
  have hneeded : ∀ x ∈ w.paths.rtake (cfg.keep - 1) ++ ((c.delta w.base).map Delta.basePath).toList,
      x.seq ≤ w.released.length → Leads (w.stored c).baseOf x m →
      m ≠ (w.record c).path → w.process.bases m = w.store.baseOf m := by
    intro x hx hle hpath _
    refine hknown m ?_
    exact (mem_closeOver_iff h.store.down).2 ⟨x, hx, h.leads_store hle hpath⟩
  rw [h.named_bases, stored_baseOf]
  split
  · rfl
  next hne =>
  rw [newest_succ, mem_append, mem_singleton] at hn
  rcases hn with hn | rfl
  · exact hneeded n (mem_append_left _ hn) (h.store.seq_le (mem_of_mem_drop hn)).2 hpath hne
  · -- The first step of the new release's chain is to its base.
    rcases Relation.ReflTransGen.cases_head hpath with heq | ⟨b, hb, hrest⟩
    · exact absurd heq.symm hne
    · rw [stored_baseOf, if_pos rfl] at hb
      obtain ⟨d, hd, rfl⟩ := map_eq_some_iff.1 hb
      have hnewest := h.delta hlate hd
      refine hneeded d.basePath (mem_append_right _ ?_)
        (h.store.seq_le (mem_of_mem_drop hnewest)).2 hrest hne
      rw [show c.delta w.base = some d from hd]
      exact mem_singleton_self _

/-- The prune keeps exactly what the newest releases lead to. -/
theorem WorldOk.mem_kept (hlate : w.late = false) (hlisted : Listed w c)
    (hknown : ∀ n ∈ w.needed cfg c, w.process.bases n = w.store.baseOf n) :
    n ∈ (w.named c).keptNames cfg (w.stored c) (w.allNames c)
      ↔ ∃ m ∈ ((w.released ++ [w.record c]).map path).rtake
          cfg.keep, Leads (w.stored c).baseOf m n := by
  have hstored := h.stored hlate hlisted.directories
  unfold Process.keptNames
  rw [process_baseOf, h.rtake_names hlisted,
    mem_closeOver_iff fun a b hb => hstored.down a b (h.named_sound hb)]
  constructor <;> rintro ⟨m, hm, hpath⟩
  · exact ⟨m, hm, hpath.mono fun a b hb => h.named_sound hb⟩
  · exact ⟨m, hm, hpath.congr fun x hx =>
      h.named_complete hlate hknown hm hx⟩

theorem WorldOk.committed_store (hlate : w.late = false) (hlisted : Listed w c)
    (hknown : ∀ n ∈ w.needed cfg c, w.process.bases n = w.store.baseOf n) {old : List Name}
    (hold : ∀ n ∈ old, n ∉ (w.named c).keptNames cfg (w.stored c) (w.allNames c)) :
    StoreOk cfg (removeTrees old (w.named c) (w.stored c)).2 (w.released ++ [w.record c]) := by
  refine (h.stored hlate hlisted.directories).removeTrees _ ?_
  intro n hn m hm hpath
  exact hold n hn ((h.mem_kept hlate hlisted hknown).2 ⟨m, hm, hpath⟩)

theorem WorldOk.committed_bases (old : List Name)
    (hb : (removeTrees old (w.named c) (w.stored c)).1.bases n = some b) :
    n ∈ (w.released ++ [w.record c]).map path
      ∧ (removeTrees old (w.named c) (w.stored c)).2.baseOf n = some b := by
  obtain ⟨hnot, hb⟩ := ite_none_left_eq_some.1 hb
  constructor
  · rw [map_append, mem_append, map_singleton, mem_singleton]
    rw [h.named_bases] at hb
    split at hb
    · next heq => exact .inr heq
    · exact .inl (h.process.bases n b hb).1
  · rw [baseOf_congr ((find_removeTrees ..).trans (if_neg hnot))]
    exact h.named_sound hb

/-- A call that raises before. It leaves the store as it was, but for the
directory of the next number, and the process has its list. -/
theorem WorldOk.raised_early (hlate : w.late = false) (hlisted : Listed w c)
    (hlatest : s.latest = w.store.latest)
    (hsame : ∀ n ≠ (w.record c).path, s.directories.find n = w.store.directories.find n)
    (hbase : ∀ b, s.baseOf (w.record c).path = some b → b.seq < (w.record c).path.seq) : WorldOk cfg
      { w with
        store := s
        process := { w.process with
          written := none
          names := some (w.process.names.getD w.store.listedNames) }
        late := false } := by
  have hnot := h.store.nextName_notMem c.version
  have hne : ∀ n ∈ w.paths, n ≠ (w.record c).path := by
    rintro n hn rfl
    exact hnot hn
  have hkeys : ∀ n ∈ s.directories.keys, n ∈ w.paths → n ∈ w.store.directories.keys := by
    intro n hn hpath
    rw [mem_keys_iff] at hn ⊢
    rw [← hsame n (hne n hpath)]
    exact hn
  have hstore := h.store.frame (h.store.seq_nextName c.version) hlatest hsame hbase
  refine ⟨hstore, ⟨fun n b hb => ?_, nofun⟩, fun _ => ?_, fun _ l hl => ?_,
    fun htidy n hn hpath => ?_⟩
  · obtain ⟨hmem, hb⟩ := h.process.bases n b hb
    exact ⟨hmem, (baseOf_congr (hsame n (hne n hmem))).trans hb⟩
  · intro chain r hchain hlast
    exact hlatest.trans (h.chain hlate chain r hchain hlast)
  · cases hl
    exact ⟨hlisted.pairwise, fun n hn hpath => hlisted.all n (hkeys n hn hpath) hpath⟩
  · obtain ⟨m, hm, hlead⟩ := h.tidy htidy n (hkeys n hn hpath) hpath
    refine ⟨m, hm, hlead.congr fun x hx => baseOf_congr (hsame x ?_)⟩
    rintro rfl
    have hle := h.store.leads_seq hx
    have := (h.store.seq_le (mem_of_mem_drop hm)).2
    have hnext := h.seq_record c
    omega

end

theorem leave_baseOf (s : Store) (n : Name) (left : Option Bool) :
    (s.leave n left).baseOf n = none := by
  cases left with
  | none => simp [baseOf, recordAt, leave]
  | some whole => simp [baseOf, recordAt, leave]

theorem find_putFiles_ne (r : PolicyRelease) (files : Nat) (hn : n ≠ r.path) :
    ((s.putDirectory r.path).putFiles r files).directories.find n = s.directories.find n := by
  unfold putFiles putDirectory
  split
  · rw [find_insert_ne _ _ hn, find_insert_ne _ _ hn]
  · rw [find_insert_ne _ _ hn]

theorem putFiles_baseOf (hb : ((s.putDirectory r.path).putFiles r files).baseOf r.path = some b) :
    r.delta.map Delta.basePath = some b := by
  unfold putFiles putDirectory baseOf recordAt at hb
  dsimp only at hb
  split at hb <;> rw [find_insert_self] at hb
  · exact hb
  · cases hb

theorem putFiles_two (s : Store) (r : PolicyRelease) (h : 2 ≤ files) :
    s.putFiles r files = s.putFiles r 2 := by
  unfold putFiles
  rw [if_pos h, if_pos (le_trans (by decide) h), if_pos (by decide), if_pos (by decide)]

theorem advance_none (chain : Option DeltaChain) :
    chain.map (DeltaChain.advance · none) = chain := by cases chain <;> rfl

section

variable (h : WorldOk cfg w)
include h

theorem WorldOk.started_bases (hb : w.process.bases n = some b) :
    n ∈ (w.released ++ [w.record c]).map path ∧ (w.stored c).baseOf n = some b := by
  obtain ⟨hmem, hb⟩ := h.process.bases n b hb
  refine ⟨?_, ?_⟩
  · rw [map_append]
    exact mem_append_left _ hmem
  · rw [stored_baseOf, if_neg]
    · exact hb
    · rintro rfl
      exact h.store.nextName_notMem c.version hmem

theorem WorldOk.completed (hlate : w.late = false) (hlisted : Listed w c)
    (hknown : ∀ n ∈ w.needed cfg c, w.process.bases n = w.store.baseOf n) :
    let kept := (w.named c).keptNames cfg (w.stored c) (w.allNames c)
    let after := removeTrees
      ((w.named c).pruned cfg (w.stored c) (w.allNames c)) (w.named c) (w.stored c)
    WorldOk cfg
      { store := after.2
        process := { after.1 with
          names := some ((w.allNames c).filter fun n => decide (n ∈ kept))
          written := some (w.record c) }
        chain := w.chain.map (DeltaChain.advance · (some (w.record c)))
        released := w.released ++ [w.record c]
        late := false
        tidy := true } := by
  intro kept after
  have hmem : ∀ n, n ∈ kept ↔ _ := fun n => h.mem_kept hlate hlisted hknown
  have hpruned : ∀ n, n ∈ (w.named c).pruned cfg (w.stored c) (w.allNames c)
      ↔ n ∈ w.allNames c ∧ n ∉ kept := by
    intro n
    unfold Process.pruned
    rw [mem_filter, decide_eq_true_iff]
  have hstore := h.committed_store hlate hlisted hknown
    fun n hn => ((hpruned n).1 hn).2
  -- What is still there of the releases is kept.
  have hthere : ∀ n ∈ after.2.directories.keys,
      n ∈ (w.released ++ [w.record c]).map path → n ∈ w.allNames c ∧ n ∈ kept := by
    intro n hn hpath
    rw [mem_keys_iff, find_removeTrees] at hn
    have hall : n ∈ w.allNames c := by
      unfold World.allNames
      rw [mem_append, mem_singleton]
      by_cases heq : n = (w.record c).path
      · exact .inr heq
      left
      refine mem_filter.2 ⟨hlisted.all n ?_ ?_, decide_eq_true heq⟩
      · split at hn
        · obtain ⟨d, hd⟩ := hn
          cases hd
        · rw [find_stored, if_neg heq] at hn
          exact (mem_keys_iff ..).2 hn
      · rw [map_append, mem_append, map_singleton,
          mem_singleton] at hpath
        exact hpath.resolve_right heq
    refine ⟨hall, ?_⟩
    by_contra hnot
    rw [if_pos ((hpruned n).2 ⟨hall, hnot⟩)] at hn
    obtain ⟨d, hd⟩ := hn
    cases hd
  refine ⟨hstore, ⟨fun n b hb => h.committed_bases _ hb, fun r hr => hr⟩,
    fun _ chain r hchain hlast => ?_, fun _ l hl => ?_, fun _ n hn hpath => ?_⟩
  · obtain ⟨old, -, rfl⟩ := map_eq_some_iff.1 hchain
    exact hlast
  · cases hl
    refine ⟨List.Pairwise.filter _ ?_, fun n hn hpath => ?_⟩
    · refine pairwise_append.2
        ⟨hlisted.pairwise.filter _, pairwise_singleton .., ?_⟩
      intro a ha b hb
      rw [mem_singleton.1 hb]
      obtain ⟨ha, hne⟩ := mem_filter.1 ha
      have hpath := (hlisted.sub a ha).resolve_right (of_decide_eq_true hne)
      have := (h.store.seq_le hpath).2
      have hnext := h.seq_record c
      omega
    · obtain ⟨hall, hkept⟩ := hthere n hn hpath
      exact mem_filter.2 ⟨hall, decide_eq_true hkept⟩
  · obtain ⟨m, hm, hlead⟩ := (hmem n).1 (hthere n hn hpath).2
    refine ⟨m, hm, hlead.congr fun x hx => ?_⟩
    have hkept : x ∈ kept := (hmem x).2 ⟨m, hm, hx⟩
    refine baseOf_congr ?_
    rw [find_removeTrees, if_neg fun hold => ((hpruned x).1 hold).2 hkept]

theorem WorldOk.listed_of_orderly (hord : orderly cfg w (.release c stop) = true)
    (hcur : c.current w.store.latest = false) :
    w.late = false ∧ Listed w c ∧ ∀ n ∈ w.needed cfg c, w.process.bases n = w.store.baseOf n := by
  dsimp only [orderly] at hord
  rw [hcur, Bool.and_eq_true, if_neg Bool.false_ne_true, Bool.and_eq_true,
    decide_eq_true_iff, decide_eq_true_iff, Bool.not_eq_true'] at hord
  obtain ⟨hlate, hnames, hknown⟩ := hord
  exact ⟨hlate, h.listed hlate hnames, hknown⟩

theorem WorldOk.release (hord : orderly cfg w (.release c stop) = true) :
    WorldOk cfg (w.release cfg c stop) := by
  unfold World.release Process.releaseStaged
  dsimp only
  rw [h.process.latestForRelease]
  cases hcur : c.current w.store.latest with
  | true =>
    rw [if_pos rfl]
    dsimp only
    rw [advance_none, Bool.not_true, Bool.false_and, if_neg Bool.false_ne_true,
      if_neg Bool.false_ne_true, Bool.false_and, Bool.or_false]
    exact { h with process := ⟨h.process.bases, fun _ hr => hr⟩ }
  | false =>
    obtain ⟨hlate, hlisted, hknown⟩ := h.listed_of_orderly hord hcur
    cases stop with
    | none =>
      rw [remember_eq, hlate]
      exact h.completed hlate hlisted hknown
    | some stage =>
      cases stage with
      | upload left =>
        rw [hlate]
        refine h.raised_early hlate hlisted ?_ (fun n hn => ?_) ?_
        · cases left <;> rfl
        · cases left with
          | none => exact find_erase_ne _ hn
          | some whole => exact find_insert_ne _ _ hn
        · intro b hb
          have hnone := leave_baseOf w.store (w.record c).path left
          exact absurd (hb.symm.trans hnone) (some_ne_none b)
      | put files =>
        dsimp only
        rw [hlate]
        rcases lt_or_ge files 2 with hlt | hge
        · have hno : Stage.late (some (.put files)) = false := decide_eq_false (not_le.2 hlt)
          rw [hno]
          refine h.raised_early hlate hlisted ?_ (fun n hn => ?_) ?_
          · exact if_neg (not_le.2 hlt)
          · exact find_putFiles_ne _ files hn
          · intro b hb
            have hstored := h.stored hlate hlisted.directories
            refine hstored.down _ b ?_
            rw [stored_baseOf, if_pos rfl]
            exact putFiles_baseOf hb
        · have hyes : Stage.late (some (.put files)) = true := decide_eq_true hge
          rw [hyes, putFiles_two _ _ hge]
          exact raised_late (h.stored hlate hlisted.directories)
            (fun n b hb => h.started_bases hb) rfl
      | prune removed =>
        rw [remember_eq, hlate]
        refine raised_late (h.committed_store hlate hlisted hknown ?_)
          (fun n b hb => h.committed_bases _ hb) rfl
        intro n hn
        have := mem_filter.1 (mem_of_mem_take hn)
        exact of_decide_eq_true this.2

theorem WorldOk.restart (fullEvery : Option Nat) (adopt : Bool) : WorldOk cfg { w with
        process := .new
        chain := chainFor w.store fullEvery adopt
        late := false } := by
  refine ⟨h.store, ⟨nofun, nofun⟩, fun _ chain r hchain hlast => ?_, nofun, h.tidy⟩
  obtain ⟨n, -, rfl⟩ := map_eq_some_iff.1 hchain
  split at hlast
  · next hlatest _ => exact hlatest.trans hlast
  · cases hlast

end

theorem worldOk_new : WorldOk cfg .new := by
  refine ⟨⟨rfl, rfl, nofun, nofun, fun n b hb => ?_, fun n hn => ?_⟩,
    ⟨nofun, nofun⟩, nofun, nofun, nofun⟩
  · cases hb
  · have hn : n ∈ ([] : List Name).rtake cfg.keep := hn
    rw [rtake_nil] at hn
    cases hn

theorem worldOk_reachable (h : (releases cfg (orderly cfg)).Reachable w) : WorldOk cfg w := by
  refine System.guarded_invariant worldOk_new ?_ h
  intro w w' op hinv hord hexec
  cases op with
  | release c stop =>
    cases hexec
    exact hinv.release hord
  | restart fullEvery adopt =>
    obtain ⟨-, rfl⟩ := of_guard hexec
    exact hinv.restart fullEvery adopt

def keepOne : Config := ⟨1, Nat.one_pos, true, false, false⟩

end Release

end Yeto.Releases
