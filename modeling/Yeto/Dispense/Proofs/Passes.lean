/-
Rows trained per pass: the table, the position map and the dispenser together.

When a client that takes stream `s` has been answered END, every position of
`s` below its limit is settled (`claim_ended`). If that holds for every stream,
the rows of the trained positions are the rows of the file, once per pass
(`trained_of_ended`). The limit is a whole number of passes only while these
fit in a stream, and END is about the streams the client TAKES
(`untaken_stream`).
-/
import Mathlib.Algebra.Order.Interval.Multiset
import Yeto.Dispense.Proofs.Answers
import Yeto.Dispense.Proofs.Streams

namespace Yeto.Dispense

open Lib Dispenser List PositionMap StreamTable

variable {fingerprint : Fingerprint} {log : List DispenseEvent} {keys : List RowKey}
  {mix : Option (List ℚ)}

def DispenseEvent.trained : DispenseEvent → Multiset Nat
  | .report _ _ .trained ranges _ => positions ranges
  | _ => 0

def trainedOf (log : List DispenseEvent) : Multiset Nat := (log.map DispenseEvent.trained).sum

theorem trained_le_settled (e : DispenseEvent) : e.trained ≤ e.settled := by
  cases e with
  | report holder block kind ranges exhausted =>
    cases kind with
    | trained => exact le_rfl
    | _ => exact Multiset.zero_le _
  | _ => exact Multiset.zero_le _

theorem settledOf_subset {log' : List DispenseEvent} (h : log <+: log') :
    ∀ p ∈ settledOf log, p ∈ settledOf log' := by
  intro p hp
  obtain ⟨es, rfl⟩ := h
  rw [settledOf_append]
  exact Multiset.mem_add.2 (.inl hp)

variable {stream : Stream} {s : Nat}

section Rows

variable {sh : Shuffle} {table : StreamTable} {seed : Int}

theorem range_map_eq_Ico (a : Nat) {n : Nat} :
    Multiset.Ico a (a + n) = (Multiset.range n).map (a + ·) := by
  rw [← Finset.range_val, Finset.range_eq_Ico]
  exact (Multiset.map_add_left_Ico 0 n a).symm

theorem map_passes {β : Type*} (f : Nat → β) (c : Nat) {l : Multiset β} {P : Nat} : (∀ pass < P,
      (Multiset.range c).map (fun i => f (pass * c + i)) = l) →
      (Multiset.range (P * c)).map f = P • l := by
  induction P with
  | zero =>
    intro _
    rw [Nat.zero_mul, zero_nsmul]
    rfl
  | succ P ih =>
    intro h
    rw [Nat.succ_mul, Multiset.range_add, Multiset.map_add, Multiset.map_map,
      ih fun pass hp => h pass (Nat.lt_succ_of_lt hp), succ_nsmul]
    exact congrArg _ (h P (Nat.lt_succ_self P))

theorem row_after (earlier : List Nat) {p : Nat} :
    (((PositionMap.ofTable sh table seed).after earlier).row p).1 = rowOf sh table seed p := by
  obtain ⟨hstreams, hseed⟩ := after_fixed (ofTable sh table seed)
  exact row_congr hstreams hseed p

section

variable (hs : table.streams[s]? = some stream)
include hs

theorem rowOf_pass {pass : Nat} (hfit : (pass + 1) * stream.rows.length ≤ 2 ^ 40) :
    ((List.range stream.rows.length).map fun i =>
        rowOf sh table seed (positionOf s (pass * stream.rows.length + i))).Perm
      (stream.rows.map Except.ok) := by
  have hr : (ofTable sh table seed).streams[s]? = some (.ofStream stream) := by
    show (table.streams.map StreamRows.ofStream)[s]? = _
    rw [getElem?_map, hs]
    rfl
  exact pass_perm hr hfit

theorem rowOf_passes {P : Nat} (hfit : P * stream.rows.length ≤ 2 ^ 40) :
    (Multiset.Ico (s * 2 ^ 40) (s * 2 ^ 40 + P * stream.rows.length)).map (rowOf sh table seed)
      = P • (stream.rows : Multiset Nat).map Except.ok := by
  rw [range_map_eq_Ico, Multiset.map_map]
  refine map_passes _ _ fun pass hp => ?_
  have hle : (pass + 1) * stream.rows.length ≤ 2 ^ 40 := (Nat.mul_le_mul_right _ hp).trans hfit
  rw [Multiset.map_coe, ← Multiset.coe_eq_coe.2 (rowOf_pass hs hle),
    ← Multiset.coe_range, Multiset.map_coe]
  refine congrArg _ (map_congr_left fun i hi => ?_)
  have hi' := mem_range.1 hi
  rw [Nat.add_mul, Nat.one_mul] at hle
  rw [positionOf_eq (by omega)]
  rfl

def StreamTable.rowsOf (t : StreamTable) (s : Nat) : List Nat :=
  (t.streams.map Stream.rows).getD s []

theorem rowsOf_eq : table.rowsOf s = stream.rows := by
  unfold rowsOf
  rw [getD_eq_getElem?_getD, getElem?_map, hs]
  rfl

end

def passPositions (table : StreamTable) (P : Nat) : Multiset Nat :=
  ∑ s ∈ Finset.range table.streams.length,
    Multiset.Ico (s * 2 ^ 40) (s * 2 ^ 40 + P * (table.rowsOf s).length)

def PassesFit (table : StreamTable) (P : Nat) : Prop :=
  ∀ stream ∈ table.streams, P * stream.rows.length < 2 ^ 40

theorem sum_map_nsmul {β : Type*} (f : Nat → β) (P : Nat)
    {lists : List (List Nat)} : (lists.map fun l : List Nat => P • (l : Multiset Nat).map f).sum
        = P • (lists.flatten : Multiset Nat).map f := by
  induction lists with
  | nil => exact (nsmul_zero P).symm
  | cons l lists ih =>
    rw [map_cons, sum_cons, ih, flatten_cons, ← Multiset.coe_add, Multiset.map_add, nsmul_add]

theorem map_rowOf_passes (hbuild : build keys fingerprint mix = .ok table) (sh : Shuffle)
    (seed : Int) {P : Nat} (hroom : PassesFit table P) :
    (passPositions table P).map (rowOf sh table seed)
      = P • (Multiset.range keys.length).map Except.ok := by
  have hstream : ∀ s ∈ Finset.range table.streams.length, (Multiset.Ico (s * 2 ^ 40) (s * 2 ^ 40
        + P * (table.rowsOf s).length)).map (rowOf sh table seed)
        = P • (table.rowsOf s : Multiset Nat).map Except.ok := by
    intro s hs
    have hs' := Finset.mem_range.1 hs
    have hget := getElem?_eq_getElem hs'
    rw [rowsOf_eq hget]
    exact rowOf_passes hget (Nat.le_of_lt (hroom _ (getElem_mem hs')))
  have hsum := map_sum (Multiset.mapAddMonoidHom (rowOf sh table seed))
    (fun s => Multiset.Ico (s * 2 ^ 40) (s * 2 ^ 40 + P * (table.rowsOf s).length))
    (Finset.range table.streams.length)
  have hlists := sum_range_getD (fun l : List Nat => P • (l : Multiset Nat).map
      (Except.ok : Nat → Except String Nat)) [] (table.streams.map Stream.rows)
  rw [length_map] at hlists
  unfold passPositions
  rw [← Multiset.coe_mapAddMonoidHom, hsum]
  refine (Finset.sum_congr rfl hstream).trans (hlists.trans ?_)
  rw [sum_map_nsmul, ← flatMap_def,
    Multiset.coe_eq_coe.2 (streams_partition hbuild), Multiset.coe_range]

end Rows

section Runs

variable {cfg : DispenseConfig} {lease : Nat} {w : World} {table : StreamTable}

/-- A client that takes stream `s` has been answered END, and the log of
that time is the beginning of the log of `w`: no restart has gone back
behind the answer. -/
def EndedFor (cfg : DispenseConfig) (lease : Nat) (decl : DataDecl) (w : World) (s : Nat) : Prop :=
  ∃ w₁ holder l seq wanted now, (runs cfg lease).Reachable w₁ ∧ w₁.disp.data = some decl
      ∧ w₁.disp.live.find holder = some l ∧ s ∈ l.accept ∧ l.Newer seq
      ∧ (w₁.disp.claim holder seq wanted now).1 = .ok .ended ∧ w₁.log <+: w.log

variable {P : U64}

theorem limit_table (hr : (runs cfg lease).Reachable w)
    (hP : cfg.passes = some P) (hdata : w.disp.data = some table.decl)
    (hs : table.streams[s]? = some stream) (hroom : P.val * stream.rows.length < 2 ^ 40) :
    w.disp.limit s = P.val * stream.rows.length := by
  have hrows : w.disp.streamRows s = stream.rows.length := by
    unfold streamRows decls
    rw [hdata]
    show (table.decl.streams.getD s _).rows = _
    rw [decl, getD_eq_getElem?_getD, getElem?_map, hs]
    rfl
  unfold limit
  rw [(worldOk_reachable hr).config, hP]
  dsimp only
  rw [hrows, streamPositions_eq, satMul, Nat.mul_comm]
  omega

/-- A run over the table, with room for `P` passes. -/
structure OverTable (cfg : DispenseConfig) (lease : Nat) (table : StreamTable)
    (P : Nat) (w : World) : Prop where
  reachable : (runs cfg lease).Reachable w
  length : w.disp.streams.length = table.streams.length
  limit : ∀ s stream, table.streams[s]? = some stream → w.disp.limit s = P * stream.rows.length
  fits : Fits w.disp.streams

theorem overTable (hr : (runs cfg lease).Reachable w)
    (hP : cfg.passes = some P) (hdata : w.disp.data = some table.decl)
    (hroom : PassesFit table P.val) : OverTable cfg lease table P.val w := by
  have hlen : w.disp.streams.length = table.streams.length := by
    rw [((worldOk_reachable hr).books.data _ hdata).2]
    exact length_map _
  have hlimit : ∀ s stream, table.streams[s]? = some stream →
      w.disp.limit s = P.val * stream.rows.length := fun s stream hs =>
    limit_table hr hP hdata hs (hroom stream (mem_of_getElem? hs))
  refine ⟨hr, hlen, hlimit, fun s hs => .inl ?_⟩
  have hs' : s < table.streams.length := hlen ▸ hs
  have hget := getElem?_eq_getElem hs'
  have hbelow : (w.disp.stream s).next ≤ w.disp.limit s := below_reachable hr s
  rw [hlimit s _ hget] at hbelow
  exact lt_of_le_of_lt hbelow (hroom _ (getElem_mem hs'))

theorem allSettled_of_ended (hP : cfg.passes = some P)
    (hroom : PassesFit table P.val) (hw : OverTable cfg lease table P.val w)
    (hended : ∀ s < table.streams.length, EndedFor cfg lease table.decl w s) :
    AllSettled w.disp w.log (List.range table.streams.length) := by
  intro s hs k hk
  have hs' := mem_range.1 hs
  have hget := getElem?_eq_getElem hs'
  obtain ⟨w₁, holder, l, seq, wanted, now, hr₁, hdata₁, hl, hin, hnew, hclaim, hlog⟩ := hended s hs'
  have hw₁ := overTable hr₁ hP hdata₁ hroom
  rw [hw.limit s _ hget, ← hw₁.limit s _ hget] at hk
  exact settledOf_subset hlog _ (claim_ended hr₁ hw₁.fits hl hnew hclaim s hin k hk)

theorem settledOf_eq {P : Nat} (hw : OverTable cfg lease table P w)
    (hall : AllSettled w.disp w.log (List.range table.streams.length)) :
    (settledOf w.log).Nodup ∧ settledOf w.log = passPositions table P := by
  have hok := worldOk_reachable hw.reachable
  have hc := hok.conserved hw.fits
  have hbelow := below_reachable hw.reachable
  have hbal : queuedPositions w.disp + openPositions w.disp + settledOf w.log
      = givenOf w.disp.streams := hc.ledger.balance
  have hnd : (givenOf w.disp.streams).Nodup := hc.ledger.nodup
  have hidle := ((idle_iff_allSettled hc hok.books hbelow fun s hs =>
    hw.length ▸ mem_range.1 hs).2 hall).1
  have hsettled : (settledOf w.log).Nodup := by
    rw [← hbal] at hnd
    exact (Multiset.nodup_add.1 hnd).2.1
  -- nothing is left to give: each counter stands at its limit
  have hgiven : givenOf w.disp.streams = passPositions table P := by
    unfold givenOf passPositions
    rw [hw.length]
    refine Finset.sum_congr rfl fun s hs => ?_
    have hs' := Finset.mem_range.1 hs
    have hget := getElem?_eq_getElem hs'
    have hup : (w.disp.stream s).next ≤ w.disp.limit s := hbelow s
    have hlow := (hidle s (mem_range.2 hs')).2
    rw [rowsOf_eq hget, ← hw.limit s _ hget, ← le_antisymm hup hlow]
    rfl
  refine ⟨hsettled, ?_⟩
  rw [← hgiven]
  refine (hsettled.ext hnd).2 fun p => ⟨fun hp => ?_, fun hp => ?_⟩
  · rw [← hbal]
    exact Multiset.mem_add.2 (.inr hp)
  · obtain ⟨s, hs, h1, h2⟩ := mem_givenOf.1 hp
    have hup : (w.disp.streams.getD s .default).next ≤ w.disp.limit s := hbelow s
    have hcap := limit_le w.disp s
    have hset := hall s (mem_range.2 (hw.length ▸ hs)) (p - s * 2 ^ 40) (by omega)
    rw [positionOf_eq (by omega), Nat.add_sub_cancel' h1] at hset
    exact hset

/-- What holds of a table, of the maps of its islands, and of every run of
the dispenser over it. -/
structure TrainedPerPass (sh : Shuffle) (seed : Int) (rows : Nat) (table : StreamTable) : Prop where
  /-- Every row is in exactly one stream. -/
  partition : (table.streams.flatMap Stream.rows).Perm (List.range rows)
  /-- A lookup answers the same whatever was looked up before it. -/
  lookups : ∀ earlier p, (((PositionMap.ofTable sh table seed).after earlier).row p).1
      = rowOf sh table seed p
  /-- The positions of a pass are the rows of the stream, each once. -/
  passes : ∀ s stream, table.streams[s]? = some stream → ∀ pass,
    (pass + 1) * stream.rows.length ≤ 2 ^ 40 → ((List.range stream.rows.length).map fun i =>
        rowOf sh table seed (positionOf s (pass * stream.rows.length + i))).Perm
      (stream.rows.map Except.ok)
  /-- Every stream taken by a client answered END, and all that is settled
  reported trained: every row was trained once per pass. -/
  trained : ∀ cfg lease w (P : U64), cfg.passes = some P →
    PassesFit table P.val → (runs cfg lease).Reachable w → w.disp.data = some table.decl →
    (∀ s < table.streams.length, EndedFor cfg lease table.decl w s) →
    (∀ p ∈ settledOf w.log, p ∈ trainedOf w.log) → ∀ row < rows,
      (trainedOf w.log).countP (fun p => rowOf sh table seed p = .ok row) = P.val

theorem trained_of_ended (hbuild : build keys fingerprint mix = .ok table) (sh : Shuffle)
    (seed : Int) (hP : cfg.passes = some P) (hroom : PassesFit table P.val)
    (hr : (runs cfg lease).Reachable w) (hdata : w.disp.data = some table.decl)
    (hended : ∀ s < table.streams.length, EndedFor cfg lease table.decl w s)
    (htrained : ∀ p ∈ settledOf w.log, p ∈ trainedOf w.log) {row : Nat} (hrow : row < keys.length) :
    (trainedOf w.log).countP (fun p => rowOf sh table seed p = .ok row) = P.val := by
  have hw := overTable hr hP hdata hroom
  obtain ⟨hnd, hsettled⟩ := settledOf_eq hw (allSettled_of_ended hP hroom hw hended)
  have hle : trainedOf w.log ≤ settledOf w.log := sum_le_sum fun e _ => trained_le_settled e
  have heq : trainedOf w.log = settledOf w.log :=
    ((Multiset.nodup_of_le hle hnd).ext hnd).2 fun p =>
      ⟨fun hp => Multiset.mem_of_le hle hp, htrained p⟩
  have hcount := congrArg (Multiset.count (Except.ok row)) (map_rowOf_passes hbuild sh seed hroom)
  rw [Multiset.count_nsmul, Multiset.count_map_eq_count'
    _ _ (fun _ _ h => Except.ok.inj h), Multiset.count_eq_one_of_mem
    (Multiset.nodup_range _) (Multiset.mem_range.2 hrow), mul_one] at hcount
  rw [heq, hsettled]
  refine Eq.trans ?_ hcount
  rw [Multiset.count_map, Multiset.countP_eq_card_filter]
  exact congrArg Multiset.card (Multiset.filter_congr fun _ _ => eq_comm)

/-- Rows trained per pass, end to end. -/
theorem rows_trained_per_pass {keys : List RowKey} {fingerprint : Fingerprint}
    {mix : Option (List ℚ)} (hbuild : StreamTable.build keys fingerprint mix = .ok table)
    (sh : Shuffle) (seed : Int) : TrainedPerPass sh seed keys.length table where
  partition := streams_partition hbuild
  lookups := row_after
  passes := fun _ _ hs _ hfit => rowOf_pass hs hfit
  trained := fun _ _ _ _ hP hroom hr hdata hended htrained _ hrow =>
    trained_of_ended hbuild sh seed hP hroom hr hdata hended htrained hrow

end Runs

/-- The shuffle that leaves the order as it is. -/
def keepOrder : Shuffle := ⟨fun _ l => l, fun _ l => List.Perm.refl l⟩

def labelKeys : List RowKey := [toLex (0, "a"), toLex (0, "b")]

def labelTable : StreamTable where
  streams := [⟨0, "a", [0], 1, "a"⟩, ⟨0, "b", [1], 1, "b"⟩]
  fingerprint := zeroFingerprint
  nonempty := by decide
  count_le := by decide

theorem build_labelKeys : build labelKeys zeroFingerprint none = .ok labelTable := rfl

theorem trained_of_settled (h : log.map DispenseEvent.settled = log.map DispenseEvent.trained) :
    ∀ p ∈ settledOf log, p ∈ trainedOf log := by
  intro p hp
  unfold settledOf at hp
  rwa [h] at hp

def twoPasses : DispenseConfig := ⟨10, some 2, 1, 8⟩

def twoPassesWorld : World := (startWorld twoPasses 10).after
    [.openWith ⟨0, 7⟩ labelTable.decl none 0, .claim ⟨0, 7⟩ 1 4 1,
      .report ⟨0, 7⟩ 2 [⟨1, .trained, [(0, 2), (2 ^ 40, 2 ^ 40 + 2)]⟩] 2]

theorem twoPassesWorld_ended (s : Nat) (hs : s < labelTable.streams.length) :
    EndedFor twoPasses 10 labelTable.decl twoPassesWorld s := by
  have hin : twoPassesWorld.disp.live.contains ⟨0, 7⟩ = true := by decide +kernel
  obtain ⟨l, hl⟩ := (SortedMap.contains_iff _ _).1 hin
  have hlast : ((twoPassesWorld.disp.live.find ⟨0, 7⟩).bind (·.last)).map
      Prod.fst = some 2 := by decide +kernel
  have haccept : (twoPassesWorld.disp.live.find ⟨0, 7⟩).map (·.accept)
      = some [0, 1] := by decide +kernel
  rw [hl] at hlast haccept
  refine ⟨twoPassesWorld, ⟨0, 7⟩, l, 3, 1, 3,
    reachable_after (reachable_start twoPasses 10) _, by decide +kernel, hl,
    ?_, fun n a hn => ?_, by decide +kernel, prefix_refl _⟩
  · have heq : l.accept = range 2 := Option.some.inj haccept
    rw [heq]
    exact mem_range.2 hs
  · rw [Option.bind_some, hn] at hlast
    obtain rfl : n = 2 := Option.some.inj hlast
    decide

theorem rows_trained_twice : (trainedOf twoPassesWorld.log).countP
        (fun p => rowOf keepOrder labelTable 5 p = .ok 0) = 2
      ∧ (trainedOf twoPassesWorld.log).countP
        (fun p => rowOf keepOrder labelTable 5 p = .ok 1) = 2 := by
  have h := (rows_trained_per_pass build_labelKeys keepOrder 5).trained
    twoPasses 10 twoPassesWorld 2 rfl (by unfold PassesFit; decide)
    (reachable_after (reachable_start twoPasses 10) _) (by decide +kernel)
    twoPassesWorld_ended (trained_of_settled (by decide +kernel))
  exact ⟨h 0 (by decide), h 1 (by decide)⟩

/-- One pass; island 0 takes label `a` and island 1 label `b`. Island 1
claims its row and is not heard of again; island 0 trains its own row and
asks for more. -/
def onePass : DispenseConfig := ⟨10, some 1, 1, 8⟩

def untakenWorld : World :=
  (startWorld onePass 10).after [.openWith ⟨0, 7⟩ labelTable.decl (some [0]) 0,
      .openWith ⟨1, 9⟩ labelTable.decl (some [1]) 0, .claim ⟨1, 9⟩ 1 1 0,
      .claim ⟨0, 7⟩ 1 1 1, .report ⟨0, 7⟩ 2 [⟨2, .trained, [(0, 1)]⟩] 8,
      .expire 12, .claim ⟨0, 7⟩ 3 1 12]

/-- Every client there is has been answered END and all that was settled
was trained, and yet a row was not trained at all: only an island that
takes its label could be given it. -/
theorem untaken_stream : StreamTable.build labelKeys zeroFingerprint none = .ok labelTable
      ∧ labelTable.accept (some ["a"]) = .ok (some [0])
      ∧ labelTable.accept (some ["b"]) = .ok (some [1])
      ∧ onePass.passes = some 1 ∧ PassesFit labelTable 1 ∧ (runs onePass 10).Reachable untakenWorld
      ∧ untakenWorld.disp.data = some labelTable.decl ∧ untakenWorld.disp.live.keys = [⟨0, 7⟩]
      ∧ (∀ l ∈ untakenWorld.disp.live.values, l.last.map Prod.snd = some (.claim .ended))
      ∧ (∀ p ∈ settledOf untakenWorld.log, p ∈ trainedOf untakenWorld.log)
      ∧ (trainedOf untakenWorld.log).countP
        (fun p => rowOf keepOrder labelTable 5 p = .ok 1) = 0 := by
  refine ⟨rfl, by decide +kernel, by decide +kernel, rfl,
    by unfold PassesFit; decide, reachable_after (reachable_start onePass 10) _,
    by decide +kernel, by decide +kernel, by decide +kernel,
    trained_of_settled (by decide +kernel), ?_⟩
  decide +kernel

end Yeto.Dispense
