/-
What a report takes out of its blocks.

`takeRange_ok` is one equation of cells: the map before is the spans taken
plus the map after, and the spans taken cover the range exactly. `overlay` is
the block table with the staged copies in place, and every staged entry is one
such equation on it.
-/
import Yeto.Dispense.Proofs.Claim

namespace Yeto.Dispense

open Lib Dispenser List SortedMap Ledger Block

variable {entries : List ReportEntry} {spans taken : List Span} {id k : Nat} {v : Nat × Nat}
  {entry : ReportEntry} {p : Span} {pieces : List Span} {redo : Nat}

def mapCells (m : SortedMap Nat (Nat × Nat)) : Multiset (Nat × Nat) :=
  m.sum fun k v => tagged k v.1 v.2

theorem cellsOf_spans (b : Block) : cellsOf b.spans = mapCells b.unreported := by
  unfold cellsOf spans mapCells
  rw [map_map]
  rfl

variable {b : Block}

theorem mem_spans {sp : Span} :
    sp ∈ b.spans ↔ b.unreported.find sp.start = some (sp.stop, sp.redo) := by
  unfold spans
  rw [mem_map, ← mem_entries_iff]
  constructor
  · rintro ⟨⟨k, e, r⟩, hmem, rfl⟩
    exact hmem
  · intro h
    exact ⟨_, h, rfl⟩

structure SpansOk (m : SortedMap Nat (Nat × Nat)) : Prop where
  nonempty : ∀ k v, m.find k = some v → k < v.1
  nodup : (Ledger.items (mapCells m)).Nodup

def Refines (m' m : SortedMap Nat (Nat × Nat)) : Prop :=
  ∀ k v, m'.find k = some v → ∃ k₀ v₀, m.find k₀ = some v₀ ∧ SubSpan ⟨k, v.1, v.2⟩ ⟨k₀, v₀.1, v₀.2⟩

variable {m : SortedMap Nat (Nat × Nat)}

theorem Refines.refl (h : SpansOk m) : Refines m m :=
  fun k v hv => ⟨k, v, hv, .refl (h.nonempty k v hv)⟩

theorem Refines.trans {a b c : SortedMap Nat (Nat × Nat)} (h : Refines a b)
    (h' : Refines b c) : Refines a c := by
  intro k v hv
  obtain ⟨k₁, v₁, h1, hs1⟩ := h k v hv
  obtain ⟨k₂, v₂, h2, hs2⟩ := h' k₁ v₁ h1
  exact ⟨k₂, v₂, h2, hs1.trans hs2⟩

theorem SpansOk.unique (h : SpansOk m) {k' x : Nat} {v' : Nat × Nat} (hk : m.find k = some v)
    (hk' : m.find k' = some v') (h1 : k ≤ x) (h2 : x < v.1) (h3 : k' ≤ x) (h4 : x < v'.1) :
    k = k' := by
  by_contra hne
  have hsplit : mapCells m = tagged k v.1 v.2 + (tagged k' v'.1 v'.2
        + mapCells ((m.erase k).erase k')) := by
    unfold mapCells
    rw [m.sum_erase_add _ hk, (m.erase k).sum_erase_add _
      ((m.find_erase_ne (Ne.symm hne)).trans hk')]
  have hn := h.nodup
  rw [hsplit, items_add, items_add] at hn
  have hx : x ∈ items (tagged k v.1 v.2) := mem_items.2 ⟨_, mem_tagged.2 ⟨h1, h2, rfl⟩⟩
  have hx' : x ∈ items (tagged k' v'.1 v'.2) := mem_items.2 ⟨_, mem_tagged.2 ⟨h3, h4, rfl⟩⟩
  exact Multiset.disjoint_left.1 (Multiset.nodup_add.1 hn).2.2 hx (Multiset.mem_add.2 (.inl hx'))

section

variable (m)

theorem find_cutFront {start : Nat} :
    (if p.start < start then (m.erase p.start).insert p.start (start, p.redo)
      else m.erase p.start).find k = if k = p.start
        then (if p.start < start then some (start, p.redo) else none) else m.find k := by
  split
  · rw [find_insert, find_erase]
    split <;> rfl
  · rw [find_erase]

theorem find_cutPiece {start : Nat} {stop : Nat} :
    (cutPiece start stop m p).find k = if k = stop ∧ stop < p.stop then some (p.stop, p.redo)
        else if k = p.start
          then (if p.start < start then some (start, p.redo) else none)
        else m.find k := by
  unfold cutPiece
  by_cases hstop : p.stop > stop
  · rw [if_pos hstop, find_insert, find_cutFront]
    simp only [hstop, and_true]
  · rw [if_neg hstop, find_cutFront]
    simp only [hstop, and_false, if_false]

end

variable {start stop : Nat}

/-- One cut: the span that is dropped is the part taken plus the ends put
back. -/
theorem cells_cutPiece (hm : SpansOk m) (hp : m.find p.start = some (p.stop, p.redo))
    (h1 : p.start < stop) (h2 : start < p.stop) (hss : start < stop) :
    mapCells m = (clampPiece start stop p).cells + mapCells (cutPiece start stop m p) := by
  have hpp : p.start < p.stop := hm.nonempty _ _ hp
  have herase : (m.erase p.start).find p.start = none := m.find_erase_self p.start
  -- the front end
  generalize hm₁ : (if p.start < start
    then (m.erase p.start).insert p.start (start, p.redo)
    else m.erase p.start) = m₁
  have hcells₁ : mapCells m₁ = tagged p.start (max p.start start) p.redo
        + mapCells (m.erase p.start) := by
    rw [← hm₁]
    split
    · next hlt =>
      unfold mapCells
      rw [sum_insert_new _ _ _ herase, Nat.max_eq_right hlt.le]
    · next hge =>
      rw [Nat.max_eq_left (not_lt.1 hge), tagged_empty _ le_rfl, zero_add]
  -- the back end: no other span starts at `stop`, which lies inside `p`
  have hcells₂ : mapCells (cutPiece start stop m p)
      = tagged (min p.stop stop) p.stop p.redo + mapCells m₁ := by
    dsimp only [cutPiece]
    rw [hm₁]
    split
    · next hgt =>
      have hnone : m₁.find stop = none := by
        have hmstop : m.find stop = none := by
          cases hf : m.find stop with
          | none => rfl
          | some v =>
            have := hm.unique hp hf h1.le hgt le_rfl (hm.nonempty _ _ hf)
            omega
        rw [← hm₁, find_cutFront, if_neg (Nat.ne_of_gt h1)]
        exact hmstop
      unfold mapCells
      rw [sum_insert_new _ _ _ hnone, Nat.min_eq_right hgt.le]
    · next hle => rw [Nat.min_eq_left (not_lt.1 hle), tagged_empty _ le_rfl, zero_add]
  have hwhole : mapCells m = tagged p.start p.stop p.redo
      + mapCells (m.erase p.start) := m.sum_erase_add _ hp
  have hmid : max p.start start ≤ min p.stop stop := by omega
  rw [hwhole, hcells₂, hcells₁, tagged_split p.redo (Nat.le_max_left p.start start)
      (show max p.start start ≤ p.stop by omega),
    tagged_split p.redo hmid (Nat.min_le_left p.stop stop)]
  show _ = tagged (max p.start start) (min p.stop stop) p.redo + _
  abel

theorem spansOk_cutPiece (hm : SpansOk m) (hp : m.find p.start = some (p.stop, p.redo))
    (h1 : p.start < stop) (h2 : start < p.stop) (hss : start < stop) :
    SpansOk (cutPiece start stop m p) ∧ Refines (cutPiece start stop m p) m := by
  have href : Refines (cutPiece start stop m p) m := by
    intro k v hv
    rw [find_cutPiece] at hv
    split at hv
    · next hk =>
      cases hv
      refine ⟨p.start, _, hp, ?_⟩
      rw [hk.1]
      exact ⟨h1.le, hk.2, le_rfl, rfl⟩
    · split at hv
      · next hk =>
        obtain ⟨hlt, rfl⟩ := of_guard hv
        refine ⟨p.start, _, hp, ?_⟩
        rw [hk]
        exact ⟨le_rfl, hlt, h2.le, rfl⟩
      · exact ⟨k, v, hv, .refl (hm.nonempty k v hv)⟩
  refine ⟨⟨?_, ?_⟩, href⟩
  · intro k v hv
    obtain ⟨k₀, v₀, -, hsub⟩ := href k v hv
    exact hsub.nonempty
  · have := hm.nodup
    rw [cells_cutPiece hm hp h1 h2 hss, items_add] at this
    exact (Multiset.nodup_add.1 this).2.1

/-- Spans of the map that meet the range, each listed once. -/
def Touched (m : SortedMap Nat (Nat × Nat)) (start stop : Nat) (pieces : List Span) : Prop :=
  (∀ p ∈ pieces, m.find p.start = some (p.stop, p.redo) ∧ p.start < stop ∧ start < p.stop)
    ∧ pieces.Pairwise fun a b => a.start < b.start

theorem Touched.sorted (h : Touched m start stop pieces) (hm : SpansOk m) :
    (pieces.map (clampPiece start stop)).Pairwise fun a b => a.stop ≤ b.start := by
  refine pairwise_map.2 (h.2.imp_of_mem fun {a b} ha hb hlt => ?_)
  refine (min_le_left _ _).trans (le_trans ?_ (le_max_left _ _))
  by_contra hover
  have hsame := hm.unique (h.1 a ha).1 (h.1 b hb).1 hlt.le (not_le.1 hover) le_rfl
    (hm.nonempty _ _ (h.1 b hb).1)
  exact absurd hsame hlt.ne

theorem cells_cutPieces (hss : start < stop) : ∀ m : SortedMap Nat (Nat × Nat), SpansOk m →
      Touched m start stop pieces → mapCells m = cellsOf (pieces.map (clampPiece start stop))
          + mapCells (pieces.foldl (cutPiece start stop) m)
        ∧ SpansOk (pieces.foldl (cutPiece start stop) m)
        ∧ Refines (pieces.foldl (cutPiece start stop) m) m := by
  induction pieces with
  | nil => intro m hm _; exact ⟨(zero_add _).symm, hm, .refl hm⟩
  | cons p pieces ih =>
    rintro m hm ⟨hall, hpair⟩
    obtain ⟨⟨hp, h1, h2⟩, hrest⟩ := forall_mem_cons.1 hall
    obtain ⟨hne, hpair'⟩ := pairwise_cons.1 hpair
    obtain ⟨hok, href⟩ := spansOk_cutPiece hm hp h1 h2 hss
    -- the other pieces are still there
    have ht' : Touched (cutPiece start stop m p) start stop pieces := by
      refine ⟨fun q hq => ?_, hpair'⟩
      obtain ⟨q1, q2, q3⟩ := hrest q hq
      refine ⟨?_, q2, q3⟩
      rw [find_cutPiece, if_neg (fun h => absurd h.1 (ne_of_lt q2)), if_neg (ne_of_gt (hne q hq))]
      exact q1
    obtain ⟨i1, i2, i3⟩ := ih _ hok ht'
    rw [foldl_cons, map_cons, cellsOf_cons]
    refine ⟨?_, i2, i3.trans href⟩
    rw [cells_cutPiece hm hp h1 h2 hss, i1, add_assoc]

theorem ico_min_add {a b : Nat} (h : a ≤ b) :
    Multiset.Ico a (min b stop) + Multiset.Ico b stop = Multiset.Ico a stop := by
  rcases Nat.le_total b stop with hb | hb
  · rw [Nat.min_eq_left hb, Multiset.Ico_add_Ico_eq_Ico h hb]
  · rw [Nat.min_eq_right hb, Multiset.Ico_eq_zero_of_le hb, add_zero]

/-- The walk lists spans of the map, ascending and without a gap, that
cover what is left of the range. -/
theorem walkSpans_ok (hm : SpansOk m) {fuel : Nat} : ∀ (cursor : Nat) (pieces : List Span),
      walkSpans m stop fuel cursor = .ok pieces →
      (∀ p ∈ pieces, m.find p.start = some (p.stop, p.redo) ∧ cursor ≤ p.start ∧ p.start < stop)
        ∧ pieces.Pairwise (fun a b => a.start < b.start) ∧ ∀ start, start ≤ cursor →
          Ledger.items (cellsOf (pieces.map (clampPiece start stop)))
            = Multiset.Ico cursor stop := by
  induction fuel with intro cursor pieces h
  | zero =>
    unfold walkSpans at h
    split at h
    · split at h
      · cases h
      · cases h
    · next hge =>
      cases h
      refine ⟨forall_mem_nil _, List.Pairwise.nil, fun _ _ => ?_⟩
      rw [Multiset.Ico_eq_zero_of_le (not_lt.1 hge)]
      rfl
  | succ fuel ih =>
    unfold walkSpans at h
    split at h
    · next hlt =>
      split at h
      · next e r hf =>
        dsimp only at h
        split at h <;> cases h
        next rest hw =>
        have hce : cursor < e := hm.nonempty _ _ hf
        obtain ⟨i1, i2, i3⟩ := ih e rest hw
        refine ⟨?_, ?_, ?_⟩
        · intro p hp
          rcases mem_cons.1 hp with rfl | hp
          · exact ⟨hf, le_rfl, hlt⟩
          · obtain ⟨j1, j2, j3⟩ := i1 p hp
            exact ⟨j1, hce.le.trans j2, j3⟩
        · refine pairwise_cons.2 ⟨fun p hp => ?_, i2⟩
          exact lt_of_lt_of_le hce (i1 p hp).2.1
        · intro start hs
          rw [map_cons, cellsOf_cons, items_add, i3 start (hs.trans hce.le), items_cells]
          dsimp only [clampPiece]
          rw [Nat.max_eq_left hs, ico_min_add hce.le]
      · cases h
    · next hge =>
      cases h
      refine ⟨forall_mem_nil _, List.Pairwise.nil, fun _ _ => ?_⟩
      rw [Multiset.Ico_eq_zero_of_le (not_lt.1 hge)]
      rfl

/-- What taking ranges out of a map of spans did. -/
structure Taken (m : SortedMap Nat (Nat × Nat)) (ranges : List (Nat × Nat))
    (taken : List Span) (m' : SortedMap Nat (Nat × Nat)) : Prop where
  cells : mapCells m = cellsOf taken + mapCells m'
  /-- The spans taken cover the ranges exactly. -/
  covers : Ledger.items (cellsOf taken) = positions ranges
  ok : SpansOk m'
  refines : Refines m' m
  parts : ∀ sp ∈ taken, ∃ k v, m.find k = some v ∧ SubSpan sp ⟨k, v.1, v.2⟩

theorem takeRange_ok {m' : SortedMap Nat (Nat × Nat)} (hm : SpansOk m)
    (h : takeRange m start stop = .ok (taken, m')) :
    Taken m [(start, stop)] taken m' ∧ taken.Pairwise fun a b => a.stop ≤ b.start := by
  obtain ⟨hss, h⟩ := of_then_error h
  rw [not_le] at hss
  split at h
  · next s e r hf =>
    obtain ⟨hes, h⟩ := of_else_error h
    split at h
    · cases h
    next rest hw =>
    cases h
    obtain ⟨hfind, hle, -⟩ := findLe_some hf
    obtain ⟨w1, w2, w3⟩ := walkSpans_ok hm _ _ hw
    have htouch : Touched m start stop (⟨s, e, r⟩ :: rest) := by
      refine ⟨?_, pairwise_cons.2 ⟨fun p hp => ?_, w2⟩⟩
      · intro p hp
        rcases mem_cons.1 hp with rfl | hp
        · exact ⟨hfind, lt_of_le_of_lt hle hss, hes⟩
        · obtain ⟨j1, j2, j3⟩ := w1 p hp
          have := hm.nonempty _ _ j1
          exact ⟨j1, j3, by omega⟩
      · exact lt_of_le_of_lt hle (lt_of_lt_of_le hes (w1 p hp).2.1)
    obtain ⟨c1, c2, c3⟩ := cells_cutPieces hss m hm htouch
    refine ⟨⟨c1, ?_, c2, c3, ?_⟩, htouch.sorted hm⟩
    · rw [map_cons, cellsOf_cons, items_add,
        w3 start hes.le, items_cells, positions_cons, positions_nil, add_zero]
      dsimp only [clampPiece]
      rw [Nat.max_eq_right hle, ico_min_add hes.le]
    · intro sp hsp
      obtain ⟨p, hp, rfl⟩ := mem_map.1 hsp
      obtain ⟨p1, p2, p3⟩ := htouch.1 p hp
      have hpp := hm.nonempty _ _ p1
      refine ⟨p.start, _, p1, Nat.le_max_left _ _, ?_, Nat.min_le_left _ _, rfl⟩
      show max p.start start < min p.stop stop
      omega
  · cases h

/-- `take_range` on the map of a block, which changes only when the walk
is through. -/
def takeRangeIn (m : SortedMap Nat (Nat × Nat)) (start stop : Nat) :
    Except String (List Span) × SortedMap Nat (Nat × Nat) :=
  match takeRange m start stop with
  | .ok (taken, m') => (.ok taken, m')
  | .error e => (.error e, m)

theorem mem_mapCells {p : Nat} : (p, redo) ∈ mapCells m
    ↔ ∃ k v, m.find k = some v ∧ k ≤ p ∧ p < v.1 ∧ redo = v.2 := by
  unfold mapCells
  simp only [mem_sum, mem_tagged]

/-- Where a span ends before `stop` the next one begins, if all is open. -/
theorem walkSpans_of_open (hm : SpansOk m) (fuel : Nat) : ∀ {cursor k : Nat} {v : Nat × Nat},
    m.find k = some v → v.1 = cursor → stop ≤ cursor + fuel →
      (∀ p, cursor ≤ p → p < stop → ∃ redo, (p, redo) ∈ mapCells m) →
      ∃ pieces, walkSpans m stop fuel cursor = .ok pieces := by
  induction fuel with
  | zero =>
    intro cursor k v _ _ hfuel _
    unfold walkSpans
    rw [if_neg (by omega)]
    exact ⟨_, rfl⟩
  | succ fuel ih =>
    intro cursor k v hk hend hfuel hopen
    unfold walkSpans
    split
    · next hlt =>
      obtain ⟨redo, hcell⟩ := hopen cursor le_rfl hlt
      obtain ⟨k', v', hk', hle, hcur, -⟩ := mem_mapCells.1 hcell
      have hpos := hm.nonempty k v hk
      -- a span that began before the cursor would share a position with the last one
      obtain rfl : k' = cursor := by
        by_contra hne
        obtain rfl := hm.unique hk hk' (x := cursor - 1) (by omega) (by omega) (by omega) (by omega)
        rw [hk] at hk'
        cases hk'
        omega
      obtain ⟨pieces, hpieces⟩ := ih hk' rfl (by omega) fun p h1 h2 => hopen p (by omega) h2
      rw [hk']
      dsimp only
      rw [hpieces]
      exact ⟨_, rfl⟩
    · exact ⟨_, rfl⟩

theorem findLe_of_open (hm : SpansOk m) (h : (start, redo) ∈ mapCells m) :
    ∃ s e r, m.findLe start = some (s, e, r) ∧ start < e := by
  obtain ⟨k, v, hk, hle, hlt, -⟩ := mem_mapCells.1 h
  cases hf : m.findLe start with
  | none =>
    have hmem : (k, v) ∈ m.entries.filter fun e => decide (e.1 ≤ start) :=
      mem_filter.2 ⟨(m.mem_entries_iff k v).2 hk, decide_eq_true hle⟩
    rw [getLast?_eq_none_iff.1 hf] at hmem
    cases hmem
  | some x =>
    obtain ⟨s, e, r⟩ := x
    obtain ⟨hfind, hs, hmax⟩ := findLe_some hf
    refine ⟨s, e, r, rfl, ?_⟩
    have hks := hmax k v hk hle
    obtain rfl := hm.unique hk hfind (x := s) hks (by omega) le_rfl (hm.nonempty s _ hfind)
    cases hk.symm.trans hfind
    exact hlt

/-- Taking a range out of disjoint spans succeeds exactly if the range is
open. It then takes the range, ascending, and leaves the rest with the
counts they had; a refused call changes nothing. -/
theorem takeRange_exact (hm : SpansOk m) (start stop : Nat) :
    ((∃ taken, (takeRangeIn m start stop).1 = .ok taken) ↔ start < stop
        ∧ ∀ p, start ≤ p → p < stop → ∃ redo, (p, redo) ∈ mapCells m)
      ∧ (∀ taken, (takeRangeIn m start stop).1 = .ok taken →
        (∀ sp ∈ taken, sp.start < sp.stop) ∧ taken.Pairwise (fun a b => a.stop ≤ b.start)
          ∧ Taken m [(start, stop)] taken (takeRangeIn m start stop).2)
      ∧ ∀ e, (takeRangeIn m start stop).1 = .error e → (takeRangeIn m start stop).2 = m := by
  unfold takeRangeIn
  cases h : takeRange m start stop with
  | ok r =>
    obtain ⟨taken, m'⟩ := r
    obtain ⟨htaken, hasc⟩ := takeRange_ok hm h
    refine ⟨iff_of_true ⟨taken, rfl⟩ ⟨?_, fun p h1 h2 => ?_⟩, ?_, nofun⟩
    · exact not_le.1 (of_then_error h).1
    · have hp : p ∈ items (cellsOf taken) := by
        rw [htaken.covers, positions_cons, positions_nil, add_zero]
        exact Multiset.mem_Ico.2 ⟨h1, h2⟩
      obtain ⟨redo, hcell⟩ := mem_items.1 hp
      exact ⟨redo, htaken.cells ▸ Multiset.mem_add.2 (.inl hcell)⟩
    · rintro _ ⟨⟩
      refine ⟨fun sp hsp => ?_, hasc, htaken⟩
      obtain ⟨k, v, -, hsub⟩ := htaken.parts sp hsp
      exact hsub.nonempty
  | error e =>
    refine ⟨iff_of_false nofun ?_, nofun, fun _ _ => rfl⟩
    rintro ⟨hss, hopen⟩
    obtain ⟨_, hfirst⟩ := hopen start le_rfl hss
    obtain ⟨s, e', r, hle, hlt⟩ := findLe_of_open hm hfirst
    obtain ⟨pieces, hwalk⟩ := walkSpans_of_open hm (stop - e') (findLe_some hle).1 rfl
      (by dsimp only; omega) fun p h1 h2 => hopen p (hlt.le.trans h1) h2
    dsimp only [takeRange] at h hwalk
    rw [if_neg (not_le.2 hss), hle] at h
    dsimp only at h
    rw [if_pos hlt, hwalk] at h
    cases h

/-- Three spans, of which the range cuts the first and the last. -/
def threeSpans : SortedMap Nat (Nat × Nat) :=
  ((SortedMap.empty.insert 0 (4, 1)).insert 4 (6, 0)).insert 6 (9, 2)

theorem takeRange_exact_three : SpansOk threeSpans
    ∧ (takeRangeIn threeSpans 2 7).1 = .ok [⟨2, 4, 1⟩, ⟨4, 6, 0⟩, ⟨6, 7, 2⟩]
    ∧ Taken threeSpans [(2, 7)] [⟨2, 4, 1⟩, ⟨4, 6, 0⟩, ⟨6, 7, 2⟩]
      (takeRangeIn threeSpans 2 7).2 := by
  have hall : ∀ e ∈ threeSpans.entries, e.1 < e.2.1 := by decide
  have hm : SpansOk threeSpans := by
    refine ⟨fun k v hv => hall (k, v) ?_, by decide⟩
    exact (threeSpans.mem_entries_iff k v).2 hv
  have hok : (takeRangeIn threeSpans 2 7).1 = .ok [⟨2, 4, 1⟩, ⟨4, 6, 0⟩, ⟨6, 7, 2⟩] := by
    decide +kernel
  exact ⟨hm, hok, ((takeRange_exact hm 2 7).2.1 _ hok).2.2⟩

theorem takeRanges_ok {ranges : List (Nat × Nat)} :
    ∀ {m m' : SortedMap Nat (Nat × Nat)} {taken : List Span}, SpansOk m →
    takeRanges ranges m = .ok (taken, m') → Taken m ranges taken m' := by
  induction ranges with intro m m' taken hm h
  | nil =>
    cases h
    exact ⟨(zero_add _).symm, rfl, hm, .refl hm, forall_mem_nil _⟩
  | cons range ranges ih =>
    unfold takeRanges at h
    split at h
    · cases h
    next t₁ m₁ h₁ =>
    split at h <;> cases h
    next t₂ m₂ h₂ =>
    have k1 := (takeRange_ok hm h₁).1
    have k2 := ih k1.ok h₂
    refine ⟨?_, ?_, k2.ok, k2.refines.trans k1.refines, ?_⟩
    · rw [k1.cells, k2.cells, cellsOf_append, add_assoc]
    · have hc := k1.covers
      rw [positions_cons, positions_nil, add_zero] at hc
      rw [cellsOf_append, items_add, hc, k2.covers, positions_cons]
    · intro sp hsp
      rcases mem_append.1 hsp with hsp | hsp
      · exact k1.parts sp hsp
      · obtain ⟨k, v, hv, hsub⟩ := k2.parts sp hsp
        obtain ⟨k₀, v₀, hv₀, hsub₀⟩ := k1.refines k v hv
        exact ⟨k₀, v₀, hv₀, hsub.trans hsub₀⟩

/-- The blocks with the staged copies in place. -/
def overlay (blocks staged : SortedMap Nat Block) : SortedMap Nat Block :=
  staged.entries.foldl (fun m e => m.insert e.1 e.2) blocks

theorem find?_later {α : Type} {l : List (Nat × α)} (h : ∀ e ∈ l, k < e.1) :
    (l.find? fun e => decide (e.1 = k)) = none := by
  refine find?_eq_none.2 fun e he => ?_
  simpa using (h e he).ne'

theorem find_foldl_insert {α : Type} {l : List (Nat × α)} : ∀ (m : SortedMap Nat α) (k : Nat),
    l.Pairwise (fun a b => a.1 < b.1) → (l.foldl (fun m e => m.insert e.1 e.2) m).find k
      = ((l.find? fun e => decide (e.1 = k)).map Prod.snd).or (m.find k) := by
  induction l with
  | nil => intro m k _; rfl
  | cons e l ih =>
    intro m k hl
    obtain ⟨he, hl'⟩ := pairwise_cons.1 hl
    rw [foldl_cons, ih _ k hl']
    by_cases hk : e.1 = k
    · rw [find?_later (hk ▸ he), find?_cons_of_pos (by simpa using hk), ← hk, find_insert_self]
      rfl
    · rw [find?_cons_of_neg (by simpa using hk), find_insert_ne _ _ (Ne.symm hk)]

theorem find_overlay (blocks staged : SortedMap Nat Block) (k : Nat) :
    (overlay blocks staged).find k = (staged.find k).or (blocks.find k) :=
  find_foldl_insert blocks k staged.sorted

theorem overlay_insert {blocks : SortedMap Nat Block} {staged : SortedMap Nat Block} :
    overlay blocks (staged.insert k b) = (overlay blocks staged).insert k b := by
  refine ext_find fun i => ?_
  rw [find_overlay, find_insert, find_insert, find_overlay]
  split <;> rfl

variable {holder : Holder} {staged : SortedMap Nat Block} {d : Dispenser}
  {d' : Dispenser} {staged' : SortedMap Nat Block}

theorem stagedBlock_ok (hst : ∀ id b, staged.find id = some b → b.holder = holder)
    (h : d.stagedBlock holder staged id = .ok b) :
    (overlay d.blocks staged).find id = some b ∧ b.holder = holder := by
  unfold stagedBlock at h
  rw [find_overlay]
  cases hs : staged.find id with rw [hs] at h
  | some b' =>
    cases h
    exact ⟨rfl, hst id b hs⟩
  | none =>
    dsimp only at h
    split at h <;> cases h
    next b' hb =>
    obtain ⟨h1, h2⟩ := Option.filter_eq_some_iff.1 hb
    exact ⟨h1, by simpa using h2⟩

def StagedOwn (d : Dispenser) (holder : Holder) (staged : SortedMap Nat Block) : Prop :=
  ∀ id b, staged.find id = some b → b.holder = holder
    ∧ ∃ b₀, d.blocks.find id = some b₀ ∧ b₀.holder = holder

theorem stagedOwn_empty (d : Dispenser) (holder : Holder) : StagedOwn d holder .empty := by
  intro id b h
  cases h

theorem stageEntry_ok (hown : StagedOwn d holder staged)
    (h : d.stageEntry holder staged entry = .ok (spans, staged')) :
    ∃ b m, (overlay d.blocks staged).find entry.block = some b ∧ b.holder = holder
      ∧ takeRanges entry.ranges b.unreported = .ok (spans, m)
      ∧ staged' = staged.insert entry.block { b with unreported := m } := by
  unfold stageEntry at h
  split at h
  · cases h
  · next b hb =>
    split at h <;> cases h
    next sp m ht =>
    obtain ⟨h1, h2⟩ := stagedBlock_ok (fun id b hs => (hown id b hs).1) hb
    exact ⟨b, m, h1, h2, ht, rfl⟩

theorem stagedOwn_stageEntry (hown : StagedOwn d holder staged)
    (h : d.stageEntry holder staged entry = .ok (spans, staged')) : StagedOwn d holder staged' := by
  obtain ⟨b, m, h1, h2, -, rfl⟩ := stageEntry_ok hown h
  intro id b' hb'
  obtain ⟨rfl, rfl⟩ | ⟨-, hb'⟩ := find_insert_cases hb'
  · refine ⟨h2, ?_⟩
    rw [find_overlay] at h1
    cases hs : staged.find entry.block with
    | some b'' => exact (hown entry.block b'' hs).2
    | none =>
      rw [hs, Option.none_or] at h1
      exact ⟨b, h1, h2⟩
  · exact hown id b' hb'

theorem stagedOwn_stageEntries {entries : List ReportEntry} :
    ∀ {staged staged' : SortedMap Nat Block}
      {removed : List (ReportEntry × List Span)}, StagedOwn d holder staged →
      d.stageEntries holder entries staged = .ok (removed, staged') →
      StagedOwn d holder staged' := by
  induction entries with
  | nil => intro staged staged' removed hown h; cases h; exact hown
  | cons entry entries ih =>
    intro staged staged' removed hown h
    unfold stageEntries at h
    split at h
    · cases h
    · next spans st h₁ =>
      split at h <;> cases h
      next rem st' h₂ => exact ih (stagedOwn_stageEntry hown h₁) h₂

/-- What staging a report did to the (overlaid) block table. -/
structure Staged (blocks : SortedMap Nat Block) (removed : List (ReportEntry × List Span))
    (blocks' : SortedMap Nat Block) : Prop where
  cells : heldCells blocks = cellsOf (removed.flatMap Prod.snd) + heldCells blocks'
  covers : ∀ r ∈ removed, Ledger.items (cellsOf r.2) = positions r.1.ranges
  refines : ∀ id b', blocks'.find id = some b' →
    ∃ b, blocks.find id = some b ∧ SpansOk b'.unreported ∧ Refines b'.unreported b.unreported
  parts : ∀ r ∈ removed, ∀ sp ∈ r.2, ∃ id b, blocks.find id = some b
    ∧ ∃ sp₀ ∈ b.spans, SubSpan sp sp₀

def BlocksOk (blocks : SortedMap Nat Block) : Prop :=
  ∀ id b, blocks.find id = some b → SpansOk b.unreported

theorem mem_spans_of_find (h : b.unreported.find k = some v) :
    (⟨k, v.1, v.2⟩ : Span) ∈ b.spans := mem_spans.2 h

theorem heldCells_insert {blocks : SortedMap Nat Block} {b' : Block} (hb : blocks.find id = some b)
    (h : mapCells b.unreported = cellsOf taken + mapCells b'.unreported) :
    heldCells blocks = cellsOf taken + heldCells (blocks.insert id b') := by
  unfold heldCells
  rw [blocks.sum_erase_add _ hb, blocks.sum_insert]
  rw [cellsOf_spans, cellsOf_spans, h, add_assoc]

theorem staged_stageEntries (entries : List ReportEntry) : ∀ {staged staged' : SortedMap Nat Block}
      {removed : List (ReportEntry × List Span)},
      StagedOwn d holder staged → BlocksOk (overlay d.blocks staged) →
      d.stageEntries holder entries staged = .ok (removed, staged') →
      Staged (overlay d.blocks staged) removed (overlay d.blocks staged') := by
  induction entries with intro staged staged' removed hown hok h
  | nil =>
    cases h
    exact ⟨(zero_add _).symm, forall_mem_nil _,
      fun id b hb => ⟨b, hb, hok id b hb, .refl (hok id b hb)⟩, forall_mem_nil _⟩
  | cons entry entries ih =>
    unfold stageEntries at h
    split at h
    · cases h
    next spans st h₁ =>
    split at h <;> cases h
    next rem st' h₂ =>
    obtain ⟨b, m, hb, -, ht, hst⟩ := stageEntry_ok hown h₁
    have htk := takeRanges_ok (hok _ b hb) ht
    have hover : overlay d.blocks st = (overlay d.blocks staged).insert entry.block
          { b with unreported := m } := by
      rw [hst, overlay_insert]
    -- the table after this entry: one block shrank
    have hback : ∀ id b', (overlay d.blocks st).find id = some b' →
        ∃ b₀, (overlay d.blocks staged).find id = some b₀ ∧ SpansOk b'.unreported
          ∧ Refines b'.unreported b₀.unreported := by
      intro id b' hb'
      rw [hover] at hb'
      obtain ⟨rfl, rfl⟩ | ⟨-, hb'⟩ := find_insert_cases hb'
      · exact ⟨b, hb, htk.ok, htk.refines⟩
      · exact ⟨b', hb', hok id b' hb', .refl (hok id b' hb')⟩
    have hok' : BlocksOk (overlay d.blocks st) := by
      intro id b' hb'
      obtain ⟨-, -, h1, -⟩ := hback id b' hb'
      exact h1
    obtain ⟨i1, i2, i3, i4⟩ := ih (stagedOwn_stageEntry hown h₁) hok' h₂
    refine ⟨?_, ?_, ?_, ?_⟩
    · rw [flatMap_cons, cellsOf_append, add_assoc, ← i1, hover]
      exact heldCells_insert hb htk.cells
    · intro r hr
      rcases mem_cons.1 hr with rfl | hr
      · exact htk.covers
      · exact i2 r hr
    · intro id b' hb'
      obtain ⟨b₁, h1, h2, h3⟩ := i3 id b' hb'
      obtain ⟨b₀, h4, -, h5⟩ := hback id b₁ h1
      exact ⟨b₀, h4, h2, h3.trans h5⟩
    · intro r hr sp hsp
      rcases mem_cons.1 hr with rfl | hr
      · obtain ⟨k, v, hv, hsub⟩ := htk.parts sp hsp
        exact ⟨entry.block, b, hb, _, mem_spans_of_find hv, hsub⟩
      · obtain ⟨id, b₁, h1, sp₁, hsp₁, hsub₁⟩ := i4 r hr sp hsp
        obtain ⟨b₀, h4, -, h5⟩ := hback id b₁ h1
        obtain ⟨k, v, hv, hsub⟩ := h5 _ _ (mem_spans.1 hsp₁)
        exact ⟨id, b₀, h4, _, mem_spans_of_find hv, hsub₁.trans hsub⟩

/-- What an entry puts back into the queues. -/
def backOf (maxRedo : Nat) (r : ReportEntry × List Span) : List Span :=
  match r.1.kind with
  | .trained => []
  | .dropped => []
  | .release => r.2
  | .requeue => (r.2.filter fun sp => decide (sp.redo < maxRedo)).map
      fun sp => { sp with redo := sp.redo + 1 }

def exhaustedOf (maxRedo : Nat) (r : ReportEntry × List Span) : List (Nat × Nat) :=
  match r.1.kind with
  | .requeue => (r.2.filter fun sp => !decide (sp.redo < maxRedo)).map Span.range
  | _ => []

def eventOf (maxRedo : Nat) (holder : Holder) (r : ReportEntry × List Span) : DispenseEvent :=
  .report holder r.1.block r.1.kind r.1.ranges (exhaustedOf maxRedo r)

def Totals.done (t : Totals) : Nat := t.trained + t.dropped + t.exhausted

section

variable (maxRedo : Nat)

theorem requeue_fold (spans : List Span) : ∀ acc : Tally × List (Nat × Nat),
    (spans.foldl (requeueSpan maxRedo) acc).1.front = acc.1.front
          ++ (spans.filter fun sp => decide (sp.redo < maxRedo)).map
            (fun sp => { sp with redo := sp.redo + 1 }) ∧ (spans.foldl (requeueSpan maxRedo) acc).2
        = acc.2 ++ (spans.filter fun sp => !decide (sp.redo < maxRedo)).map Span.range
      ∧ (spans.foldl (requeueSpan maxRedo) acc).1.events = acc.1.events
      ∧ (spans.foldl (requeueSpan maxRedo) acc).1.totals.trained = acc.1.totals.trained
      ∧ (spans.foldl (requeueSpan maxRedo) acc).1.totals.dropped = acc.1.totals.dropped
      ∧ (spans.foldl (requeueSpan maxRedo) acc).1.totals.exhausted
        = ((spans.filter fun sp => !decide (sp.redo < maxRedo)).map
            Span.len).foldl wadd acc.1.totals.exhausted := by
  induction spans with
  | nil => simp
  | cons sp spans ih =>
    intro acc
    obtain ⟨i1, i2, i3, i4, i5, i6⟩ := ih (requeueSpan maxRedo acc sp)
    rw [foldl_cons, i1, i2, i3, i4, i5, i6]
    by_cases hlt : sp.redo < maxRedo
    · rw [filter_cons_of_pos (by simpa using hlt), filter_cons_of_neg (by simpa using hlt)]
      unfold requeueSpan
      rw [if_pos hlt, map_cons, append_assoc, singleton_append]
      exact ⟨rfl, rfl, rfl, rfl, rfl, rfl⟩
    · rw [filter_cons_of_neg (by simpa using hlt), filter_cons_of_pos (by simpa using hlt)]
      unfold requeueSpan
      rw [if_neg hlt, map_cons, append_assoc, singleton_append, map_cons, foldl_cons]
      exact ⟨rfl, rfl, rfl, rfl, rfl, rfl⟩

def settledSpans (maxRedo : Nat) (r : ReportEntry × List Span) : List Span :=
  match r.1.kind with
  | .trained => r.2
  | .dropped => r.2
  | .release => []
  | .requeue => r.2.filter fun sp => !decide (sp.redo < maxRedo)

theorem commitEntry_spec (holder : Holder) (t : Tally) (r : ReportEntry × List Span) :
    (commitEntry maxRedo holder t r).front = t.front ++ backOf maxRedo r
      ∧ (commitEntry maxRedo holder t r).events = t.events ++ [eventOf maxRedo holder r] := by
  obtain ⟨⟨block, kind, ranges⟩, spans⟩ := r
  unfold commitEntry eventOf exhaustedOf
  cases kind with
  | trained | dropped => exact ⟨(append_nil _).symm, rfl⟩
  | release => exact ⟨rfl, rfl⟩
  | requeue =>
    dsimp only
    obtain ⟨h1, h2, h3, -⟩ := requeue_fold maxRedo spans ({ t with answer := { t.answer with
        settled := wadd t.answer.settled (lenSum spans) } }, [])
    rw [h1, h2, h3]
    exact ⟨rfl, rfl⟩

theorem commitEntry_done (holder : Holder) (t : Tally) (r : ReportEntry × List Span)
    (hp : ∀ sp ∈ r.2, Proper sp)
    (hfit : t.totals.done + (cellsOf (settledSpans maxRedo r)).card < 2 ^ 64) :
    (commitEntry maxRedo holder t r).totals.done
      = t.totals.done + (cellsOf (settledSpans maxRedo r)).card := by
  obtain ⟨⟨block, kind, ranges⟩, spans⟩ := r
  unfold Totals.done at hfit ⊢
  unfold commitEntry
  cases kind with
  | trained | dropped =>
    dsimp only [settledSpans, wadd] at hfit ⊢
    have hlen : lenSum spans = (cellsOf spans).card % 2 ^ 64 := lenSum_eq hp
    rw [Nat.mod_eq_of_lt (by omega)] at hlen
    omega
  | release => exact (Nat.add_zero _).symm
  | requeue =>
    dsimp only [settledSpans] at hfit ⊢
    generalize hs : (spans.filter fun sp => !decide (sp.redo < maxRedo)) = settled at hfit ⊢
    have hp' : ∀ sp ∈ settled, Proper sp := by
      intro sp hsp
      rw [← hs] at hsp
      exact hp sp (mem_filter.1 hsp).1
    obtain ⟨-, -, -, h4, h5, h6⟩ := requeue_fold maxRedo spans ({ t with answer := { t.answer with
        settled := wadd t.answer.settled (lenSum spans) } }, [])
    dsimp only at h4 h5 h6
    rw [h4, h5, h6, hs]
    have hsum : ((settled.map Span.len).foldl wadd t.totals.exhausted)
        = t.totals.exhausted + (cellsOf settled).card := by
      have hl := lenSum_eq hp'
      unfold lenSum at hl
      rw [foldl_wadd 0 (by decide), Nat.zero_add] at hl
      rw [foldl_wadd _ (by omega)]
      rw [Nat.add_mod, hl, ← Nat.add_mod, Nat.mod_eq_of_lt (by omega)]
    omega

theorem commit_fold (holder : Holder) (removed : List (ReportEntry × List Span)) : ∀ t : Tally,
      (removed.foldl (commitEntry maxRedo holder) t).front
          = t.front ++ removed.flatMap (backOf maxRedo)
        ∧ (removed.foldl (commitEntry maxRedo holder) t).events
          = t.events ++ removed.map (eventOf maxRedo holder) := by
  induction removed with
  | nil => intro t; exact ⟨(append_nil _).symm, (append_nil _).symm⟩
  | cons r removed ih =>
    intro t
    obtain ⟨h1, h2⟩ := commitEntry_spec maxRedo holder t r
    obtain ⟨i1, i2⟩ := ih (commitEntry maxRedo holder t r)
    rw [foldl_cons, i1, i2, h1, h2, flatMap_cons, map_cons,
      append_assoc, append_assoc, singleton_append]
    exact ⟨rfl, rfl⟩

theorem commit_fold_done (holder : Holder) (removed : List (ReportEntry × List Span)) : ∀ t : Tally,
      (∀ r ∈ removed, ∀ sp ∈ r.2, Proper sp) → t.totals.done
        + (cellsOf (removed.flatMap (settledSpans maxRedo))).card < 2 ^ 64 →
      (removed.foldl (commitEntry maxRedo holder) t).totals.done = t.totals.done
          + (cellsOf (removed.flatMap (settledSpans maxRedo))).card := by
  induction removed with
  | nil => intro t _ _; rfl
  | cons r removed ih =>
    intro t hp hfit
    obtain ⟨hr, hrest⟩ := forall_mem_cons.1 hp
    rw [flatMap_cons, cellsOf_append, Multiset.card_add] at hfit ⊢
    have h1 := commitEntry_done maxRedo holder t r hr (by omega)
    rw [foldl_cons, ih _ hrest (by omega), h1]
    omega

end

def Block.isDone (b : Block) : Bool := b.unreported.entries.isEmpty

theorem Block.spans_of_isDone (h : b.isDone = true) : b.spans = [] := by
  unfold spans
  rw [isEmpty_iff.1 h]
  rfl

structure Finished (holder : Holder) (l : List (Nat × Block)) (d d' : Dispenser) : Prop where
  cfg : d'.cfg = d.cfg
  data : d'.data = d.data
  streams : d'.streams = d.streams
  nextBlock : d'.nextBlock = d.nextBlock
  members : d'.members = d.members
  totals : d'.totals = d.totals
  events : ∃ ids : List Nat, d'.events = d.events ++ ids.map fun id => .blockDone holder id
  blocks : ∀ k, d'.blocks.find k = match l.find? fun e => decide (e.1 = k) with
      | some e => if e.2.isDone then none else some e.2
      | none => d.blocks.find k
  gone : ∀ h, d.live.find h = none → d'.live.find h = none
  kept : ∀ h live, d.live.find h = some live → ∃ live',
    d'.live.find h = some live' ∧ live'.accept = live.accept
      ∧ live'.waiting = live.waiting ∧ live'.last = live.last
      ∧ ∀ id, live'.blocks.contains id = true ↔ live.blocks.contains id = true
          ∧ ¬ (h = holder ∧ ∃ e ∈ l, e.1 = id ∧ e.2.isDone = true)

theorem finished_one (holder : Holder) (d : Dispenser) (e : Nat × Block) :
    Finished holder [e] d (finishBlock holder d e) := by
  obtain ⟨id, b⟩ := e
  unfold finishBlock
  split
  · next hdone =>
    have hd : b.isDone = true := hdone
    refine ⟨rfl, rfl, rfl, rfl, rfl, rfl, ⟨[id], rfl⟩, ?_, ?_, ?_⟩
    · intro k
      rw [find_erase]
      by_cases hk : id = k
      · simp [hk, hd]
      · simp [hk, Ne.symm hk]
    · intro h hn
      rw [find_update]
      split
      · next he => rw [← he, hn]; rfl
      · exact hn
    · intro h live hl
      by_cases hh : h = holder
      · subst hh
        refine ⟨{ live with blocks := live.blocks.erase id }, ?_, rfl, rfl, rfl, ?_⟩
        · rw [find_update, if_pos rfl, hl]
          rfl
        · intro k
          unfold SortedMap.contains
          show ((live.blocks.erase id).find k).isSome = true ↔ _
          rw [find_erase]
          by_cases hk : k = id
          · subst hk
            simp [hd]
          · have hk' : ¬ id = k := fun he => hk he.symm
            simp [hk, hk']
      · refine ⟨live, ?_, rfl, rfl, rfl, ?_⟩
        · rw [find_update, if_neg hh]
          exact hl
        · simp [hh]
  · next hdone =>
    have hd : ¬ b.isDone = true := hdone
    refine ⟨rfl, rfl, rfl, rfl, rfl, rfl, ⟨[], (append_nil _).symm⟩, ?_, fun h hn => hn, ?_⟩
    · intro k
      rw [find_insert]
      by_cases hk : id = k
      · simp [hk, hd]
      · simp [hk, Ne.symm hk]
    · intro h live hl
      refine ⟨live, hl, rfl, rfl, rfl, fun k => ?_⟩
      simp [hd]

theorem finished_foldl (holder : Holder) (l : List (Nat × Block)) :
    ∀ d : Dispenser, l.Pairwise (fun a b => a.1 < b.1) →
    Finished holder l d (l.foldl (finishBlock holder) d) := by
  induction l with
  | nil =>
    intro d _
    refine ⟨rfl, rfl, rfl, rfl, rfl, rfl, ⟨[], (append_nil _).symm⟩,
      fun k => rfl, fun h hn => hn, fun h live hl =>
        ⟨live, hl, rfl, rfl, rfl, fun k => ?_⟩⟩
    simp
  | cons e l ih =>
    intro d hl
    obtain ⟨he, hl'⟩ := pairwise_cons.1 hl
    have h1 := finished_one holder d e
    have h2 := ih (finishBlock holder d e) hl'
    rw [foldl_cons]
    refine ⟨h2.cfg.trans h1.cfg, h2.data.trans h1.data,
      h2.streams.trans h1.streams, h2.nextBlock.trans h1.nextBlock,
      h2.members.trans h1.members, h2.totals.trans h1.totals, ?_, ?_, ?_, ?_⟩
    · obtain ⟨ids₁, e₁⟩ := h1.events
      obtain ⟨ids₂, e₂⟩ := h2.events
      exact ⟨ids₁ ++ ids₂, by rw [e₂, e₁, map_append, append_assoc]⟩
    · intro k
      rw [h2.blocks]
      by_cases hk : e.1 = k
      · rw [find?_later (hk ▸ he), find?_cons_of_pos (by simpa using hk)]
        rw [h1.blocks, find?_cons_of_pos (by simpa using hk)]
      · rw [find?_cons_of_neg (by simpa using hk), h1.blocks, find?_cons_of_neg (by simpa using hk)]
        rfl
    · intro h hn
      exact h2.gone h (h1.gone h hn)
    · intro h live hlive
      obtain ⟨l₁, a1, a2, a3, a4, a5⟩ := h1.kept h live hlive
      obtain ⟨l₂, b1, b2, b3, b4, b5⟩ := h2.kept h l₁ a1
      refine ⟨l₂, b1, b2.trans a2, b3.trans a3, b4.trans a4, fun k => ?_⟩
      rw [b5, a5]
      simp only [mem_cons, not_mem_nil, or_false, exists_eq_left, exists_eq_or_imp]
      rw [and_assoc, ← not_or, ← and_or_left]

section

variable (h : Finished holder staged.entries d d')
include h

theorem Finished.find_blocks (k : Nat) : d'.blocks.find k = match staged.find k with
      | some b => if b.isDone then none else some b
      | none => d.blocks.find k := by
  rw [h.blocks]
  unfold SortedMap.find
  cases staged.entries.find? fun e => decide (e.1 = k) <;> rfl

/-- The staged blocks put back: the overlaid table without the finished
ones. -/
theorem Finished.blocks_eq :
    d'.blocks = (overlay d.blocks staged).filter fun k b => !(staged.contains k && b.isDone) := by
  refine ext_find fun k => ?_
  rw [h.blocks, find_filter, find_overlay]
  unfold SortedMap.contains SortedMap.find
  cases hk : (staged.entries.find? fun e => decide (e.1 = k)) with
  | none =>
    cases d.blocks.entries.find? fun e => decide (e.1 = k) with
    | none => rfl
    | some e => simp [Option.filter_some]
  | some e =>
    cases hd : e.2.isDone with
    | true => simp [hd, Option.filter_some]
    | false => simp [hd, Option.filter_some]

theorem heldCells_finished : heldCells d'.blocks = heldCells (overlay d.blocks staged) := by
  rw [h.blocks_eq]
  refine sum_filter _ _ _ fun k b _ hp => ?_
  have hd : b.isDone = true := by
    cases hd : b.isDone with
    | true => rfl
    | false => rw [hd, Bool.and_false] at hp; cases hp
  rw [spans_of_isDone hd]
  rfl

end

def afterCommit (d : Dispenser) (holder : Holder)
    (removed : List (ReportEntry × List Span)) : Dispenser :=
  let t := removed.foldl (commitEntry d.cfg.maxRedo.val holder) ⟨d.totals, .zero, [], d.events⟩
  { d with totals := t.totals, events := t.events }

theorem reportNew_ok {removed : List (ReportEntry × List Span)}
    (h : d.stageEntries holder entries .empty = .ok (removed, staged)) :
    (d.reportNew holder entries).2 = (staged.entries.foldl (finishBlock holder)
          (afterCommit d holder removed)).pushFront
        (removed.flatMap (backOf d.cfg.maxRedo.val)) := by
  unfold reportNew
  rw [h]
  dsimp only
  rw [(commit_fold d.cfg.maxRedo.val holder removed _).1, nil_append]
  rfl

theorem reportNew_error {e : DispenseError} (h : d.stageEntries holder entries .empty = .error e) :
    d.reportNew holder entries = (.error e, d) := by
  unfold reportNew
  rw [h]

theorem Books.finished (hb : Books d) (hown : StagedOwn d holder staged)
    (h : Finished holder staged.entries d d') : Books d' := by
  have hblocks : ∀ k b, d'.blocks.find k = some b →
      ∃ b₀, d.blocks.find k = some b₀ ∧ b₀.holder = b.holder
        ∧ ¬ ∃ b', staged.find k = some b' ∧ b'.isDone = true := by
    intro k b hk
    rw [h.find_blocks] at hk
    cases hs : staged.find k with rw [hs] at hk
    | none => exact ⟨b, hk, rfl, nofun⟩
    | some b' =>
      obtain ⟨hd, hk⟩ := Option.ite_none_left_eq_some.1 hk
      cases hk
      obtain ⟨o1, b₀, o2, o3⟩ := hown k b hs
      refine ⟨b₀, o2, o3.trans o1.symm, ?_⟩
      rintro ⟨_, ⟨⟩, hd'⟩
      exact hd hd'
  have hmem : ∀ id, (∃ e ∈ staged.entries, e.1 = id ∧ e.2.isDone = true)
      ↔ ∃ b, staged.find id = some b ∧ b.isDone = true := by
    intro id
    constructor
    · rintro ⟨⟨k, b⟩, he, rfl, hd⟩
      exact ⟨b, (staged.mem_entries_iff k b).1 he, hd⟩
    · rintro ⟨b, hf, hd⟩
      exact ⟨(id, b), (staged.mem_entries_iff id b).2 hf, rfl, hd⟩
  have hlive : ∀ h' l', d'.live.find h' = some l' →
      ∃ l, d.live.find h' = some l ∧ l'.accept = l.accept ∧ ∀ id, l'.blocks.contains id = true
          ↔ l.blocks.contains id = true ∧ ¬ (h' = holder
            ∧ ∃ b, staged.find id = some b ∧ b.isDone = true) := by
    intro h' l' hl'
    cases hl : d.live.find h' with
    | none => rw [h.gone h' hl] at hl'; cases hl'
    | some l =>
      obtain ⟨l₁, a1, a2, -, -, a5⟩ := h.kept h' l hl
      rw [a1] at hl'
      cases hl'
      refine ⟨l, rfl, a2, fun id => ?_⟩
      rw [a5, hmem]
  refine ⟨by rw [h.members]; exact hb.members, ?_, ?_, ?_,
    by rw [h.nextBlock]; exact hb.first, ?_, ?_, ?_, ?_⟩
  · intro id b hf
    obtain ⟨b₀, h1, h2, h3⟩ := hblocks id b hf
    obtain ⟨l, hl, hmem'⟩ := hb.owner id b₀ h1
    obtain ⟨l₁, a1, -, -, -, a5⟩ := h.kept b₀.holder l hl
    refine ⟨l₁, by rw [← h2]; exact a1, (a5 id).2 ⟨hmem', ?_⟩⟩
    rintro ⟨-, hdone⟩
    exact h3 ((hmem id).1 hdone)
  · intro h' l' id hl' hc
    obtain ⟨l, hl, -, hiff⟩ := hlive h' l' hl'
    obtain ⟨hc', hnot⟩ := (hiff id).1 hc
    obtain ⟨b₀, hb₀, hh⟩ := hb.owned h' l id hl hc'
    rw [h.find_blocks]
    cases hs : staged.find id with
    | none => exact ⟨b₀, hb₀, hh⟩
    | some b =>
      obtain ⟨o1, b₁, o2, o3⟩ := hown id b hs
      rw [hb₀] at o2
      cases o2
      have hd : ¬ b.isDone = true := fun hd => hnot ⟨hh.symm.trans o3, b, hs, hd⟩
      exact ⟨b, if_neg hd, o1.trans (o3.symm.trans hh)⟩
  · intro id b hf
    obtain ⟨b₀, h1, -, -⟩ := hblocks id b hf
    rw [h.nextBlock]
    exact hb.ids id b₀ h1
  · intro h' l' hl'
    obtain ⟨l, hl, hacc, -⟩ := hlive h' l' hl'
    rw [hacc, h.streams]
    exact hb.accept h' l hl
  · rw [h.data, h.streams]
    exact hb.data
  · intro hd
    rw [h.data] at hd
    obtain ⟨n1, n2⟩ := hb.nodata hd
    refine ⟨by rw [h.streams]; exact n1, ext_find fun h' => ?_⟩
    exact h.gone h' (by rw [n2]; rfl)
  · unfold stream
    rw [h.streams]
    exact hb.counters

theorem reportNew_rule {P : Dispenser → Prop} (refused : P d) (settled : ∀ {removed staged d'},
      d.stageEntries holder entries .empty = .ok (removed, staged) →
      Finished holder staged.entries (afterCommit d holder removed) d' →
      P (d'.pushFront (removed.flatMap (backOf d.cfg.maxRedo.val)))) :
    P (d.reportNew holder entries).2 := by
  cases hst : d.stageEntries holder entries .empty with
  | error e => rwa [reportNew_error hst]
  | ok r =>
    rw [reportNew_ok hst]
    exact settled hst (finished_foldl holder _ _ r.2.sorted)

theorem Books.reportNew (h : Books d) (holder : Holder)
    (entries : List ReportEntry) : Books (d.reportNew holder entries).2 := by
  refine reportNew_rule h fun {removed _ _} hst hfin => ?_
  have hown := stagedOwn_stageEntries (stagedOwn_empty d holder) hst
  have hc : Books (afterCommit d holder removed) := h.of_eq h.members rfl rfl rfl rfl rfl
  exact (hc.finished hown hfin).pushFront _

end Yeto.Dispense
