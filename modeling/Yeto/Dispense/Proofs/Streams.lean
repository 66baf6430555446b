/-
The streams partition the rows (`sum_groupRows`), and a pass of a stream is its
rows (`pass_perm`). `PositionMap.cached` makes the answer of a lookup a
function of the rows and the seed (`row_congr`).
-/
import Yeto.Dispense.Streams

namespace Yeto.Dispense

open Lib List SortedMap StreamTable

/-- The rows of all groups. -/
def groupedRows (groups : SortedMap RowKey (List Nat)) : Multiset Nat :=
  groups.sum fun _ rows => (rows : Multiset Nat)

theorem groupedRows_joinGroup {groups : SortedMap RowKey (List Nat)} {e : RowKey × Nat} :
    groupedRows (joinGroup groups e) = groupedRows groups + {e.2} := by
  unfold groupedRows joinGroup
  rw [sum_insert]
  cases hf : groups.find e.1 with
  | none =>
    rw [erase_eq_self _ hf, add_comm]
    rfl
  | some rows =>
    rw [sum_erase_add groups _ hf, Option.getD_some, ← Multiset.coe_add, add_right_comm]
    rfl

theorem groupedRows_foldl {rows : List (RowKey × Nat)} : ∀ groups : SortedMap RowKey (List Nat),
    groupedRows (rows.foldl joinGroup groups)
      = groupedRows groups + (rows.map Prod.snd : List Nat) := by
  induction rows with
  | nil => intro groups; exact (add_zero _).symm
  | cons e rows ih =>
    intro groups
    rw [foldl_cons, ih, groupedRows_joinGroup, add_assoc]
    rfl

/-- The groups share out the rows of the file. -/
theorem sum_groupRows {keys : List RowKey} :
    groupedRows (groupRows keys) = (range keys.length : List Nat) := by
  unfold groupRows
  rw [groupedRows_foldl, zipIdx_map_snd, ← range_eq_range']
  exact zero_add _

theorem coe_flatten_values {groups : SortedMap RowKey (List Nat)} :
    (groups.values.flatten : Multiset Nat) = groupedRows groups := by
  unfold groupedRows SortedMap.sum values
  induction groups.entries with
  | nil => rfl
  | cons e rest ih =>
    rw [map_cons, flatten_cons, map_cons, sum_cons, ← ih]
    rfl

variable {mix : Option (List ℚ)}

theorem length_streamWeights {groups : SortedMap RowKey (List Nat)} {weights : List Nat}
    (h : streamWeights groups mix = .ok weights) : weights.length = groups.entries.length := by
  cases mix with dsimp only [streamWeights] at h
  | none =>
    split at h
    · cases h
    split at h
    next hkeys =>
      cases h
      have hlen := congrArg List.length hkeys
      rw [SortedMap.keys, length_map] at hlen
      exact hlen.symm
    next =>
      cases h
      rw [values, length_map, length_map]
  | some mix =>
    split at h
    · cases h
    split at h
    · cases h
    cases h
    unfold mixWeights
    rw [length_map, length_map]

theorem map_rows_zipWith (f : RowKey × List Nat → Nat → Stream) (hf : ∀ e n, (f e n).rows = e.2)
    {entries : List (RowKey × List Nat)} : ∀ weights : List Nat, weights.length = entries.length →
      (entries.zipWith f weights).map Stream.rows = entries.map Prod.snd := by
  induction entries with
  | nil => intro weights _; rfl
  | cons e entries ih =>
    intro weights hlen
    cases weights with
    | nil => cases hlen
    | cons n weights =>
      rw [zipWith_cons_cons, map_cons, map_cons, hf, ih weights (Nat.succ.inj hlen)]

variable {fingerprint : Fingerprint} {table : StreamTable}

theorem new_streams {streams : List Stream} (h : new streams fingerprint = .ok table) :
    table.streams = streams := by
  unfold new at h
  split at h <;> cases h
  rfl

section

variable {keys : List RowKey} (h : build keys fingerprint mix = .ok table)
include h

/-- A stream has the rows of its group. -/
theorem build_rows : table.streams.map Stream.rows = (groupRows keys).values := by
  dsimp only [build] at h
  split at h
  · cases h
  split at h
  · cases h
  next weights hweights =>
    rw [new_streams h]
    exact map_rows_zipWith _ (fun _ _ => rfl) _ (length_streamWeights hweights)

/-- Every row is in one stream. -/
theorem streams_partition : (table.streams.flatMap Stream.rows).Perm (range keys.length) := by
  rw [← Multiset.coe_eq_coe, flatMap_def, build_rows h, coe_flatten_values, sum_groupRows]

end

theorem map_getD_range {α : Type*} (l : List α) (d : α) :
    (range l.length).map (fun i => l.getD i d) = l := by
  refine ext_getElem (by simp) fun i h1 h2 => ?_
  rw [getElem_map, getElem_range, getD_eq_getElem _ _ h2]

namespace StreamRows

theorem length_list (r : StreamRows) : r.list.length = r.count := by
  unfold list
  cases h : r.rows with
  | none => exact length_range
  | some l => exact r.agree l h

theorem row_eq (r : StreamRows) {k : Nat} (hk : k < r.count) : r.row k = r.list.getD k 0 := by
  unfold row list
  cases r.rows with
  | none => rw [Option.getD_none, getD_eq_getElem _ _ (by simpa using hk), getElem_range]
  | some l => rfl

end StreamRows

namespace PositionMap

variable {sh : Shuffle}

/-- A cached order is the order of its pass. -/
theorem order_eq {m : PositionMap sh} {stream : Nat} {pass : Nat} : (m.order stream pass).1
      = passOrder sh (countOf m.streams stream) m.seed pass stream := by
  unfold order
  split
  next order hfind => exact m.cached _ _ hfind
  next => rfl

theorem order_fixed (m : PositionMap sh) (stream pass : Nat) :
    (m.order stream pass).2.streams = m.streams ∧ (m.order stream pass).2.seed = m.seed := by
  unfold order
  split <;> exact ⟨rfl, rfl⟩

theorem row_fixed (m : PositionMap sh) (p : Nat) :
    (m.row p).2.streams = m.streams ∧ (m.row p).2.seed = m.seed := by
  dsimp only [row]
  split
  · exact ⟨rfl, rfl⟩
  split
  · exact ⟨rfl, rfl⟩
  · exact m.order_fixed _ _

theorem after_fixed {positions : List Nat} : ∀ m : PositionMap sh,
    (m.after positions).streams = m.streams ∧ (m.after positions).seed = m.seed := by
  induction positions with
  | nil => intro m; exact ⟨rfl, rfl⟩
  | cons p positions ih =>
    intro m
    obtain ⟨hstreams, hseed⟩ := ih (m.row p).2
    exact ⟨hstreams.trans (m.row_fixed p).1, hseed.trans (m.row_fixed p).2⟩

/-- The cache does not show. -/
theorem row_congr {m m' : PositionMap sh} (hstreams : m'.streams = m.streams)
    (hseed : m'.seed = m.seed) (p : Nat) : (m'.row p).1 = (m.row p).1 := by
  dsimp only [row]
  rw [hstreams]
  cases m.streams[streamOf p]? with
  | none => rfl
  | some r =>
    dsimp only
    split
    · rfl
    · rw [order_eq, order_eq, hstreams, hseed]

section

variable {m : PositionMap sh} {r : StreamRows} {s : Nat} (hr : m.streams[s]? = some r)
include hr

/-- The row behind a position, by its pass. -/
theorem row_position {pass i : Nat} (hi : i < r.count) (hfit : pass * r.count + i < 2 ^ 40) :
    (m.row (positionOf s (pass * r.count + i))).1
      = .ok (r.row ((passOrder sh r.count m.seed pass s).getD i 0)) := by
  have hstream : streamOf (positionOf s (pass * r.count + i)) = s := by
    rw [positionOf_eq hfit, streamOf_eq]
    exact Nat.div_eq_of_lt_le (by omega) (by omega)
  have hlocal : localOf (positionOf s (pass * r.count + i)) = pass * r.count + i := by
    rw [positionOf_eq hfit, localOf_eq, Nat.mul_add_mod_of_lt hfit]
  have hcount : countOf m.streams s = r.count := by
    unfold countOf
    rw [hr]
    rfl
  have hpos : 0 < r.count := lt_of_le_of_lt (Nat.zero_le i) hi
  dsimp only [row]
  rw [hstream, hlocal, hr]
  dsimp only
  rw [if_neg (Nat.ne_of_gt hpos), order_eq, hcount,
    Nat.mul_add_mod_of_lt hi, Nat.mul_comm, Nat.mul_add_div hpos, Nat.div_eq_of_lt hi]
  rfl

/-- A pass goes through the rows of a stream once. -/
theorem pass_perm {pass : Nat} (hfit : (pass + 1) * r.count ≤ 2 ^ 40) :
    ((range r.count).map fun i =>
        (m.row (positionOf s (pass * r.count + i))).1).Perm (r.list.map Except.ok) := by
  have hperm := passOrder_perm sh r.count m.seed pass s
  generalize horder : passOrder sh r.count m.seed pass s = order at hperm
  have hlen : order.length = r.count := by rw [hperm.length_eq, length_range]
  have hrow : ∀ k ∈ order, r.row k = r.list.getD k 0 := by
    intro k hk
    exact r.row_eq (mem_range.1 (hperm.mem_iff.1 hk))
  have hmap : ((range r.count).map fun i =>
        (m.row (positionOf s (pass * r.count + i))).1)
      = (order.map fun k => r.list.getD k 0).map Except.ok := by
    conv_rhs => rw [← map_congr_left hrow, ← map_getD_range order 0, hlen]
    rw [map_map, map_map]
    refine map_congr_left fun i hi => ?_
    have hi' := mem_range.1 hi
    rw [Nat.add_mul, Nat.one_mul] at hfit
    rw [row_position hr hi' (by omega), horder]
    rfl
  rw [hmap]
  refine List.Perm.map _ ?_
  have hlist := hperm.map fun k => r.list.getD k 0
  rwa [← r.length_list, map_getD_range] at hlist

end

end PositionMap

end Yeto.Dispense
