/-
How a role's GPUs become engines (`chunk_by_node`).

Without a topology the list is cut into consecutive runs. The runs of a
cross-node engine are cut out of the nodes that the role owns whole, whose
neighbours need not be neighbouring nodes (`chunk_skips_node`). Otherwise a
loop fills a block with bundles of one node and gives up a short block when
the node changes.
-/
import Mathlib.Data.Finset.Sort
import Yeto.Lib.Guards

namespace Yeto.Engines

open List Lib

structure Topology where
  nodes : Nat
  gpusPerNode : Nat
  nodes_pos : 0 < nodes
  gpus_pos : 0 < gpusPerNode

/-- `[l[i:i + n] for i in range(0, len(l) - n + 1, n)]`; the range has
`len(l) // n` members. -/
def slices {α : Type*} (l : List α) (n : Nat) : List (List α) :=
  (range (l.length / n)).map fun i => (l.drop (i * n)).take n

def sorted (l : List Nat) : List Nat := l.insertionSort (· ≤ ·)

namespace Topology

variable (t : Topology) (bundles : List Nat)

def total : Nat := t.nodes * t.gpusPerNode

def nodeOf (bundle : Nat) : Nat := bundle / t.gpusPerNode

def check : Except String Unit :=
  match bundles.find? (t.total ≤ ·) with
  | some b => .error s!"logical bundle {b} outside 0..{t.total - 1}"
  | none => .ok ()

def byNode (n : Nat) : List Nat := bundles.filter (t.nodeOf · = n)

/-- The nodes all of whose slots are among the bundles. -/
def wholeNodes : List Nat := (sorted (bundles.map t.nodeOf).dedup).filter fun n =>
  ∀ i ∈ range t.gpusPerNode, i ∈ (t.byNode bundles n).map (· % t.gpusPerNode)

end Topology

structure Blocks where
  runs : List (List Nat) := []
  rest : List Nat := []
  block : List Nat := []
  current : Option Nat := none

namespace Blocks

def enter (s : Blocks) (node : Nat) : Blocks :=
  if s.current ≠ some node ∧ s.block ≠ [] then
    { s with rest := s.rest ++ s.block, block := [], current := some node }
  else { s with current := some node }

def push (s : Blocks) (per b : Nat) : Blocks :=
  let block := s.block ++ [b]
  if block.length = per then { s with runs := s.runs ++ [block], block := [] }
  else { s with block }

end Blocks

def chunkByNode (bundles : List Nat) (topology : Option Topology) (per : Nat)
    (allowCrossNode : Bool) : Except String (List (List Nat) × List Nat) :=
  match topology with
  | none =>
    let runs := slices bundles per
    .ok (runs, bundles.drop (runs.length * per))
  | some t =>
    let g := t.gpusPerNode
    if (allowCrossNode ∧ per > g) ∧ per % g ≠ 0 then
      .error s!"cross-node engine of {per} GPUs is not whole {g}-GPU nodes"
    else do
      t.check bundles
      if allowCrossNode ∧ per > g then
        let whole := (t.wholeNodes bundles).map fun n => sorted (t.byNode bundles n)
        let runs := (slices whole (per / g)).map flatten
        .ok (runs, bundles.filter (· ∉ runs.flatten))
      else
        let s := bundles.foldl (fun s b => (s.enter (t.nodeOf b)).push per b) ({} : Blocks)
        .ok (s.runs, s.rest ++ s.block)

section

variable {α : Type*} {l : List α} {n : Nat}

theorem flatten_slices : (slices l n).flatten = l.take ((slices l n).length * n) := by
  unfold slices
  rw [length_map, length_range]
  induction l.length / n with
  | zero => simp
  | succ m ih => simp [range_succ, ih, Nat.succ_mul, take_add]

theorem length_of_mem_slices {r : List α} (h : r ∈ slices l n) : r.length = n := by
  obtain ⟨i, hi, rfl⟩ := mem_map.1 h
  have hle : (i + 1) * n ≤ l.length / n * n := Nat.mul_le_mul_right n (mem_range.1 hi)
  have := Nat.div_mul_le_self l.length n
  rw [Nat.add_mul] at hle
  rw [length_take, length_drop]
  omega

end

variable {t : Topology} {per : Nat} {bundles l ns : List Nat} {s : Blocks} {b n : Nat}

/-- What the loop keeps, after the bundles `l`; `T` says that the bundles
of a node are listed together. -/
structure BlocksOk (t : Topology) (per : Nat) (T : Prop) (l : List Nat) (s : Blocks) : Prop where
  perm : (s.runs.flatten ++ (s.rest ++ s.block)).Perm l
  runs : ∀ r ∈ s.runs, r.length = per ∧ ∃ n, ∀ b ∈ r, t.nodeOf b = n
  block : s.block.length < per
  node : ∀ b ∈ s.block, s.current = some (t.nodeOf b)
  few : T → ∀ n, ((s.rest ++ s.block).filter (t.nodeOf · = n)).length < per
  passed : T → ∀ b ∈ s.rest, s.current ≠ some (t.nodeOf b)

section

variable {T : Prop} (h : BlocksOk t per T l s)
include h

theorem BlocksOk.enter (hnew : T → s.current ≠ some n → ∀ b ∈ l, t.nodeOf b ≠ n) :
    BlocksOk t per T l (s.enter n) := by
  have hmem : ∀ b ∈ s.rest ++ s.block, b ∈ l := fun b hb => h.perm.subset (mem_append_right _ hb)
  unfold Blocks.enter
  split
  · next hc =>
    refine ⟨by simpa using h.perm, h.runs, Nat.zero_lt_of_lt h.block, nofun,
      by simpa using h.few, ?_⟩
    rintro hT b hb ⟨⟩
    exact hnew hT hc.1 b (hmem b hb) rfl
  · next hc =>
    by_cases hn : s.current = some n
    · rwa [← hn]
    · have hnil : s.block = [] := by_contra fun hne => hc ⟨hn, hne⟩
      refine ⟨h.perm, h.runs, h.block, by simp [hnil], h.few, ?_⟩
      rintro hT b hb ⟨⟩
      exact hnew hT hn b (hmem b (mem_append_left _ hb)) rfl

theorem BlocksOk.push (hcur : s.current = some (t.nodeOf b)) :
    BlocksOk t per T (l ++ [b]) (s.push per b) := by
  have hperm : (s.runs.flatten ++ (s.rest ++ (s.block ++ [b]))).Perm (l ++ [b]) := by
    simpa using h.perm.append_right [b]
  have hall : ∀ x ∈ s.block ++ [b], s.current = some (t.nodeOf x) := by
    simpa [or_imp, forall_and, hcur] using h.node
  unfold Blocks.push
  dsimp only
  split
  · next hfull =>
    refine ⟨?_, fun r hr => ?_, Nat.zero_lt_of_lt h.block, nofun, fun hT n => ?_, h.passed⟩
    · show ((s.runs ++ [s.block ++ [b]]).flatten ++ (s.rest ++ [])).Perm _
      rw [append_nil, flatten_append, flatten_singleton, append_assoc]
      exact (perm_append_comm.append_left _).trans hperm
    · rcases mem_append.1 hr with hr | hr
      · exact h.runs r hr
      · rw [mem_singleton.1 hr]
        exact ⟨hfull, _, fun x hx => Option.some.inj ((hall x hx).symm.trans hcur)⟩
    · rw [append_nil]
      exact (((sublist_append_left _ _).filter _).length_le).trans_lt (h.few hT n)
  · next hfull =>
    have hlen : (s.block ++ [b]).length < per := by
      have := h.block
      simp only [length_append, length_singleton] at hfull ⊢
      omega
    refine ⟨hperm, h.runs, hlen, hall, fun hT n => ?_, h.passed⟩
    by_cases hn : t.nodeOf b = n
    · have hnil : s.rest.filter (t.nodeOf · = n) = [] := by
        refine filter_eq_nil_iff.2 fun x hx => ?_
        simpa using fun he => h.passed hT x hx (by rw [hcur, hn, he])
      rw [filter_append, hnil, nil_append]
      exact (length_filter_le _ _).trans_lt hlen
    · simpa [hn] using h.few hT n

end

theorem Blocks.current_enter : (s.enter n).current = some n := by
  unfold enter
  split <;> rfl

theorem Blocks.current_push : (s.push per b).current = s.current := by
  dsimp only [push]
  split <;> rfl

/-- A node that differs from the last one has not been listed before. -/
def Together (f : Nat → Nat) (l : List Nat) : Prop :=
  ∀ a b c, l = a ++ b :: c → a.getLast?.map f ≠ some (f b) → ∀ x ∈ a, f x ≠ f b

theorem blocksOk_foldl (hper : 0 < per) : l <+: bundles →
    let s := l.foldl (fun s b => (s.enter (t.nodeOf b)).push per b) ({} : Blocks)
    BlocksOk t per (Together t.nodeOf bundles) l s ∧ s.current = l.getLast?.map t.nodeOf := by
  induction l using List.reverseRecOn with
  | nil => exact fun _ => ⟨⟨.refl _, nofun, hper, nofun, fun _ _ => hper, nofun⟩, rfl⟩
  | append_singleton l b ih =>
    rintro ⟨c, rfl⟩
    obtain ⟨hok, hcur⟩ := ih ⟨[b] ++ c, (append_assoc ..).symm⟩
    have hnext := hok.enter (n := t.nodeOf b) fun hT hne => hT l b c (by simp) (hcur ▸ hne)
    rw [foldl_append]
    refine ⟨hnext.push Blocks.current_enter, ?_⟩
    rw [getLast?_concat]
    exact Blocks.current_push.trans Blocks.current_enter

def Topology.gpusOf (t : Topology) (n : Nat) : List Nat := range' (n * t.gpusPerNode) t.gpusPerNode

def Whole (t : Topology) (bundles : List Nat) (n : Nat) : Prop := t.gpusOf n ⊆ bundles

theorem mem_gpusOf : b ∈ t.gpusOf n ↔ t.nodeOf b = n := by
  unfold Topology.gpusOf Topology.nodeOf
  rw [mem_range'_1, Nat.div_eq_iff t.gpus_pos]
  have := t.gpus_pos
  omega

theorem mem_gpus : b ∈ ns.flatMap t.gpusOf ↔ t.nodeOf b ∈ ns := by simp [mem_flatMap, mem_gpusOf]

/-- The GPUs of a list of nodes leave no node out exactly if the list does
not. -/
theorem leaves_nothing_iff : (∀ a ∈ ns.flatMap t.gpusOf, ∀ c ∈ ns.flatMap t.gpusOf, ∀ n,
      t.nodeOf a < n → n < t.nodeOf c → t.gpusOf n ⊆ ns.flatMap t.gpusOf)
    ↔ ∀ a ∈ ns, ∀ c ∈ ns, ∀ n, a < n → n < c → n ∈ ns := by
  have hfirst (n : Nat) : n * t.gpusPerNode ∈ t.gpusOf n :=
    mem_range'_1.2 ⟨le_rfl, Nat.lt_add_of_pos_right t.gpus_pos⟩
  have hnode (n : Nat) : t.nodeOf (n * t.gpusPerNode) = n := mem_gpusOf.1 (hfirst n)
  constructor
  · intro h a ha c hc n h1 h2
    have hmem : ∀ x ∈ ns, x * t.gpusPerNode ∈ ns.flatMap t.gpusOf :=
      fun x hx => mem_gpus.2 (by rwa [hnode])
    have hsub := h _ (hmem a ha) _ (hmem c hc) n (by rwa [hnode]) (by rwa [hnode])
    have hn := mem_gpus.1 (hsub (hfirst n))
    rwa [hnode] at hn
  · intro h a ha c hc n h1 h2 x hx
    rw [mem_gpus] at ha hc ⊢
    rw [mem_gpusOf.1 hx]
    exact h _ ha _ hc n h1 h2

theorem mem_wholeNodes : n ∈ t.wholeNodes l ↔ Whole t l n := by
  unfold Topology.wholeNodes sorted
  rw [mem_filter, mem_insertionSort, mem_dedup, mem_map, decide_eq_true_iff]
  constructor
  · rintro ⟨-, hslots⟩ b hb
    obtain ⟨x, hx, hmod⟩ := mem_map.1 (hslots _ (mem_range.2 (Nat.mod_lt b t.gpus_pos)))
    obtain ⟨hx, hnode⟩ := mem_filter.1 hx
    have heq : x / t.gpusPerNode = b / t.gpusPerNode :=
      (of_decide_eq_true hnode).trans (mem_gpusOf.1 hb).symm
    rwa [← Nat.div_add_mod b t.gpusPerNode, ← heq, ← hmod, Nat.div_add_mod]
  · intro h
    have hin : ∀ i < t.gpusPerNode, n * t.gpusPerNode + i ∈ t.gpusOf n :=
      fun i hi => mem_range'_1.2 ⟨by omega, by omega⟩
    refine ⟨⟨_, h (hin 0 t.gpus_pos), mem_gpusOf.1 (hin 0 t.gpus_pos)⟩, fun i hi => mem_map.2 ?_⟩
    have hi := mem_range.1 hi
    refine ⟨_, mem_filter.2 ⟨h (hin i hi), decide_eq_true (mem_gpusOf.1 (hin i hi))⟩, ?_⟩
    rw [Nat.mul_add_mod', Nat.mod_eq_of_lt hi]

theorem sorted_wholeNodes : (t.wholeNodes l).Pairwise (· < ·) := by
  have hnd := ((perm_insertionSort (· ≤ ·) _).nodup_iff.2 (nodup_dedup (l.map t.nodeOf)))
  exact ((sortedLE_insertionSort.pairwise.and hnd).imp fun h => lt_of_le_of_ne h.1 h.2).filter _

theorem sorted_byNode (hnd : bundles.Nodup) (h : Whole t bundles n) :
    sorted (t.byNode bundles n) = t.gpusOf n := by
  have hperm : (t.byNode bundles n).Perm (t.gpusOf n) := by
    refine (perm_ext_iff_of_nodup (hnd.filter _) nodup_range').2 fun b => ?_
    show b ∈ bundles.filter _ ↔ b ∈ t.gpusOf n
    rw [mem_gpusOf, mem_filter, decide_eq_true_iff]
    exact and_iff_right_of_imp fun hb => h (mem_gpusOf.2 hb)
  exact ((perm_insertionSort _ _).trans hperm).eq_of_sortedLE sortedLE_insertionSort
    (sortedLE_range' ..)

/-- Numbers without a gap, in ascending order. -/
def Consecutive (ns : List Nat) : Prop := ns.IsChain fun a b => b = a + 1

structure Split (bundles : List Nat) (topology : Option Topology) (per : Nat)
    (allowCrossNode : Bool) (runs : List (List Nat)) (rest : List Nat) : Prop where
  perm : (runs.flatten ++ rest).Perm bundles
  size : ∀ r ∈ runs, r.length = per
  inside : ∀ t, topology = some t → per ≤ t.gpusPerNode → (∀ r ∈ runs, ∃ n, ∀ b ∈ r, t.nodeOf b = n)
    ∧ (Together t.nodeOf bundles → ∀ n, (rest.filter (t.nodeOf · = n)).length < per)
  /-- Whole nodes, each in one run only. -/
  across : ∀ t, topology = some t → allowCrossNode = true → t.gpusPerNode < per →
    runs.Pairwise (fun r r' => ∀ b ∈ r, ∀ b' ∈ r', t.nodeOf b ≠ t.nodeOf b')
    ∧ ∀ r ∈ runs, ∀ b ∈ r, t.gpusOf (t.nodeOf b) ⊆ r
  /-- No node is left out of any run, exactly if every slice of as many whole
  nodes as an engine needs is without a gap. -/
  consecutive : ∀ t, topology = some t → allowCrossNode = true → t.gpusPerNode < per →
    ((∀ r ∈ runs, ∀ a ∈ r, ∀ c ∈ r, ∀ n, t.nodeOf a < n → n < t.nodeOf c → t.gpusOf n ⊆ r)
      ↔ ∀ ns ∈ slices (t.wholeNodes bundles) (per / t.gpusPerNode), Consecutive ns)

theorem runs_eq (hnd : bundles.Nodup) (k : Nat) :
    (slices ((t.wholeNodes bundles).map fun n => sorted (t.byNode bundles n)) k).map flatten
      = (slices (t.wholeNodes bundles) k).map fun ns => ns.flatMap t.gpusOf := by
  rw [map_congr_left fun n hn => sorted_byNode hnd (mem_wholeNodes.1 hn)]
  unfold slices
  simp [flatMap_def]

theorem nodup_gpus (h : ns.Nodup) : (ns.flatMap t.gpusOf).Nodup := by
  refine nodup_flatMap.2 ⟨fun n _ => nodup_range', h.imp fun hne b h1 h2 => ?_⟩
  exact hne ((mem_gpusOf.1 h1).symm.trans (mem_gpusOf.1 h2))

theorem consecutive_eq {x : Nat} (h : Consecutive (x :: ns)) :
    x :: ns = range' x (ns.length + 1) := by
  induction ns generalizing x with
  | nil => rfl
  | cons y ns ih =>
    obtain ⟨rfl, hrest⟩ := isChain_cons_cons.1 h
    exact congrArg (x :: ·) (ih hrest)

/-- An ascending list has no gap exactly if it leaves nothing out. -/
theorem consecutive_iff (h : ns.Pairwise (· < ·)) :
    Consecutive ns ↔ ∀ a ∈ ns, ∀ c ∈ ns, ∀ n, a < n → n < c → n ∈ ns := by
  refine ⟨fun hc => ?_, fun hfull => ?_⟩
  · cases ns with
    | nil => exact nofun
    | cons x ns =>
      rw [consecutive_eq hc]
      simp only [mem_range'_1]
      omega
  · induction ns with
    | nil => exact .nil
    | cons x ns ih =>
      obtain ⟨hx, hrest⟩ := pairwise_cons.1 h
      have hlater : ∀ n, x < n → n ∈ x :: ns → n ∈ ns :=
        fun n hn hmem => (mem_cons.1 hmem).resolve_left hn.ne'
      have hns : Consecutive ns := ih hrest fun a ha c hc n h1 h2 =>
        hlater n ((hx a ha).trans h1)
          (hfull a (mem_cons_of_mem _ ha) c (mem_cons_of_mem _ hc) n h1 h2)
      cases ns with
      | nil => exact .singleton x
      | cons y ns =>
        refine isChain_cons_cons.2 ⟨by_contra fun hne => ?_, hns⟩
        -- the number after the first would lie before the second
        have hxy := hx y mem_cons_self
        have hmem := hlater (x + 1) x.lt_succ_self (hfull x mem_cons_self y
          (mem_cons_of_mem _ mem_cons_self) (x + 1) x.lt_succ_self (by omega))
        rcases mem_cons.1 hmem with heq | hmem
        · exact hne heq.symm
        · have hlt := (pairwise_cons.1 hrest).1 _ hmem
          omega

theorem perm_leftover {used : List Nat} (hused : used.Nodup) (hnd : bundles.Nodup)
    (hin : ∀ b ∈ used, b ∈ bundles) : (used ++ bundles.filter (· ∉ used)).Perm bundles := by
  refine (perm_ext_iff_of_nodup ?_ hnd).2 fun b => ?_
  · refine nodup_append.2 ⟨hused, hnd.filter _, ?_⟩
    rintro b hb _ hb' rfl
    exact of_decide_eq_true (mem_filter.1 hb').2 hb
  · have := hin b
    simp only [mem_append, mem_filter, decide_eq_true_iff]
    tauto

theorem split_whole {k : Nat} (cross : Bool) (hlt : t.gpusPerNode < k * t.gpusPerNode)
    (hnd : bundles.Nodup) :
    let runs := (slices (t.wholeNodes bundles) k).map (·.flatMap t.gpusOf)
    Split bundles (some t) (k * t.gpusPerNode) cross runs
      (bundles.filter (· ∉ runs.flatten)) := by
  have hasc := sorted_wholeNodes (t := t) (l := bundles)
  have hwhole (n : Nat) := mem_wholeNodes (t := t) (l := bundles) (n := n)
  generalize heq : t.wholeNodes bundles = nodes at hasc hwhole
  intro runs
  have hsub : (slices nodes k).flatten <+ nodes := flatten_slices ▸ take_sublist _ _
  have hflat := (hasc.imp ne_of_lt).sublist hsub
  have hruns : runs.flatten = (slices nodes k).flatten.flatMap t.gpusOf := by
    simp only [runs, flatMap_def, map_flatten, flatten_flatten, map_map]
    rfl
  have hin : ∀ b ∈ runs.flatten, b ∈ bundles := by
    intro b hb
    rw [hruns, mem_gpus] at hb
    exact (hwhole _).1 (hsub.subset hb) (mem_gpusOf.2 rfl)
  refine ⟨perm_leftover (hruns ▸ nodup_gpus hflat) hnd hin, fun r hr => ?_, ?_, ?_, ?_⟩
  · obtain ⟨ns, hns, rfl⟩ := mem_map.1 hr
    simp [length_flatMap, Topology.gpusOf, length_of_mem_slices hns]
  · rintro _ ⟨⟩ hle
    omega
  · rintro _ ⟨⟩ - -
    refine ⟨pairwise_map.2 ((nodup_flatten.1 hflat).2.imp fun hd b hb b' hb' heq => ?_), ?_⟩
    · exact hd (mem_gpus.1 hb) (heq ▸ mem_gpus.1 hb')
    · intro r hr b hb x hx
      obtain ⟨ns, hns, rfl⟩ := mem_map.1 hr
      exact mem_gpus.2 (mem_gpusOf.1 hx ▸ mem_gpus.1 hb)
  · rintro _ ⟨⟩ - -
    rw [Nat.mul_div_cancel _ t.gpus_pos, heq]
    refine forall_mem_map.trans (forall₂_congr fun ns hns => ?_)
    rw [consecutive_iff (hasc.sublist ((sublist_flatten_of_mem hns).trans hsub))]
    exact leaves_nothing_iff

theorem chunkByNode_split {topology : Option Topology} {cross : Bool} {runs : List (List Nat)}
    {rest : List Nat} (hper : 0 < per) (hnodup : bundles.Nodup)
    (h : chunkByNode bundles topology per cross = .ok (runs, rest)) :
    Split bundles topology per cross runs rest := by
  unfold chunkByNode at h
  cases topology with
  | none =>
    cases h
    refine ⟨?_, fun r hr => length_of_mem_slices hr, nofun, nofun, nofun⟩
    rw [flatten_slices, take_append_drop]
  | some t =>
    obtain ⟨hmod, h⟩ := of_then_error h
    cases hcheck : t.check bundles with
    | error e => rw [hcheck] at h; cases h
    | ok _ =>
      rw [hcheck] at h
      dsimp only [bind, Except.bind] at h
      split at h
      · next hc =>
        cases h
        rw [runs_eq hnodup]
        have hk := Nat.div_mul_cancel (Nat.dvd_of_mod_eq_zero (by_contra fun hne => hmod ⟨hc, hne⟩))
        have hsplit := split_whole cross (hk.symm ▸ hc.2) hnodup
        rwa [hk] at hsplit
      · next hc =>
        cases h
        obtain ⟨hok, -⟩ := blocksOk_foldl hper (List.prefix_refl bundles)
        refine ⟨hok.perm, fun r hr => (hok.runs r hr).1, ?_, ?_, ?_⟩
        · rintro _ ⟨⟩ -
          exact ⟨fun r hr => (hok.runs r hr).2, hok.few⟩
        all_goals
          rintro _ ⟨⟩ hcross hlt
          exact absurd ⟨hcross, hlt⟩ hc

theorem chunkByNode_split_two : Split [3, 0, 1, 2] (some ⟨2, 2, by decide, by decide⟩) 4 true
    [[0, 1, 2, 3]] [] := chunkByNode_split (by decide) (by decide) (by rfl)

/-- The nodes 0 and 2 are whole, but not neighbours. -/
theorem chunk_skips_node :
    chunkByNode [0, 2] (some ⟨3, 1, by decide, by decide⟩) 2 true = .ok ([[0, 2]], [])
      ∧ ¬ Topology.gpusOf ⟨3, 1, by decide, by decide⟩ 1 ⊆ [0, 2] := ⟨rfl, by decide⟩

end Yeto.Engines
