/-
The interleave of the streams over whole runs. While every holder accepts
every stream and no stream is at its limit, the counters are those of a run of
the chairman rule (`Mixed`). A restart continues from the counters of the
record.
-/
import Yeto.Lib.Chairman
import Yeto.Dispense.Proofs.Batches
import Yeto.Dispense.Proofs.Limits

namespace Yeto.Dispense

open Lib Dispenser List Interleave Chairman

variable {iv : Interleave} {counts opened seen h : List Nat} {n : Int} {s k : Nat}
  {acc : Scan} {d d' : Dispenser} {cfg : DispenseConfig} {lease : Nat} {w w' : World}

/-- No stream seen is due before the candidate. -/
def Earliest (iv : Interleave) (counts : List Nat) (n : Int) (seen : List Nat)
    (acc : Scan) : Prop :=
  ∀ b a, acc.due = some (b, a) → ∀ s ∈ seen, iv.Open counts s → iv.Eligible counts n s →
    a * iv.weights.getD s 0 ≤ iv.deadline counts s * iv.weights.getD b 0

theorem earliest_step (hpos : ∀ t ∈ seen ++ [s], 0 < iv.weights.getD t 0)
    (hok : ScanOk iv counts n seen acc) (h : Earliest iv counts n seen acc) :
    Earliest iv counts n (seen ++ [s]) (iv.scanStream counts n acc s) := by
  intro b a hdue t ht hopen hel
  unfold scanStream at hdue
  split at hdue
  · next hfull =>
    have hne : t ≠ s := by
      rintro rfl
      exact absurd hopen (not_lt.2 hfull)
    exact h b a hdue t ((mem_append.1 ht).resolve_right (by simpa using hne)) hopen hel
  dsimp only at hdue
  split at hdue
  · next hc =>
    cases hdue
    rcases mem_append.1 ht with hseen | hnew
    · cases hacc : acc.due with
      | none => exact absurd hel (hok.due_none hacc t hseen hopen)
      | some e =>
        have hold := h e.1 e.2 hacc t hseen hopen hel
        have hearlier := hc.2
        rw [hacc] at hearlier
        -- both deadlines against the candidate's, which is dropped
        have hlt := mul_le_mul_of_nonneg_right (of_decide_eq_true hearlier).le (hpos t ht).le
        have hle := mul_le_mul_of_nonneg_right hold (hpos s mem_append_cons_self).le
        have hb := hpos e.1 (mem_append_left _ (hok.due_mem e.1 e.2 hacc).1)
        refine le_of_mul_le_mul_right ?_ hb
        unfold Interleave.deadline at hle ⊢
        linarith
    · cases mem_singleton.1 hnew
      exact le_rfl
  · next hc =>
    rcases mem_append.1 ht with hseen | hnew
    · exact h b a hdue t hseen hopen hel
    · cases mem_singleton.1 hnew
      rw [hdue] at hc
      exact not_lt.1 fun hlt => hc ⟨hel, decide_eq_true hlt⟩

theorem earliest_scan (given : Int) (hpos : ∀ t ∈ opened, 0 < iv.weights.getD t 0) :
    Earliest iv counts (given + 1) opened (iv.scan opened counts given) := by
  have hfold : ∀ rest seen acc, (∀ t ∈ seen ++ rest, 0 < iv.weights.getD t 0) →
      ScanOk iv counts (given + 1) seen acc → Earliest iv counts (given + 1) seen acc →
      Earliest iv counts (given + 1) (seen ++ rest)
        (rest.foldl (iv.scanStream counts (given + 1)) acc) := by
    intro rest
    induction rest with
    | nil =>
      intro seen acc _ _ h
      rwa [append_nil]
    | cons s rest ih =>
      intro seen acc hpos hok h
      rw [← singleton_append, ← append_assoc] at hpos ⊢
      exact ih _ _ hpos (scanOk_step hok)
        (earliest_step (fun t ht => hpos t (mem_append_left _ ht)) hok h)
  exact hfold opened [] _ hpos scanOk_nil fun _ _ _ _ hs => (not_mem_nil hs).elim

/-- The interleave of `k` streams with positive weights. -/
structure Shares (iv : Interleave) (k : Nat) : Prop where
  two : 2 ≤ k
  pos : ∀ s ∈ Finset.range k, 0 < iv.weights.getD s 0
  total : iv.total = Chairman.total (Finset.range k) (iv.weights.getD · 0)
  m : iv.m = scale (Finset.range k)

/-- The picks `h` of the rule, newest first, give these counts. -/
structure Counted (iv : Interleave) (k : Nat) (h counts : List Nat) : Prop where
  run : Run (Finset.range k) (iv.weights.getD · 0) h
  length : counts.length = k
  count : ∀ s < k, counts.getD s 0 = h.count s

section Round

variable (hiv : Shares iv k) (hc : Counted iv k h counts)

include hiv hc

theorem eligible_iff (hs : s < k) : iv.Eligible counts (h.length + 1) s
    ↔ Chairman.Eligible (Finset.range k) (iv.weights.getD · 0) h s := by
  unfold Interleave.Eligible Chairman.Eligible
  rw [hc.count s hs, hiv.m, hiv.total]

/-- With all streams open a stream is due, and it is the rule's. -/
theorem exists_due (hall : ∀ s, s ∈ opened ↔ s < k) (hopen : ∀ s < k, iv.Open counts s) :
    ∃ s a, (iv.scan opened counts h.length).due = some (s, a)
      ∧ Picks (Finset.range k) (iv.weights.getD · 0) h s := by
  have hok := scanOk_scan iv opened counts h.length
  have hcard : 2 ≤ (Finset.range k).card := by simpa using hiv.two
  cases hdue : (iv.scan opened counts h.length).due with
  | none =>
    obtain ⟨s, hs, hel⟩ := exists_eligible hcard hiv.pos hc.run.mem
    have hs := Finset.mem_range.1 hs
    exact absurd ((eligible_iff hiv hc hs).2 hel)
      (hok.due_none hdue s ((hall s).2 hs) (hopen s hs))
  | some e =>
    obtain ⟨hmem, -, hel, ha⟩ := hok.due_mem e.1 e.2 hdue
    have hs := (hall _).1 hmem
    refine ⟨e.1, e.2, rfl, Finset.mem_range.2 hs, (eligible_iff hiv hc hs).1 hel,
      fun t ht hel' => ?_⟩
    have ht := Finset.mem_range.1 ht
    have hle := earliest_scan h.length (fun x hx => hiv.pos x (Finset.mem_range.2 ((hall x).1 hx)))
      e.1 e.2 hdue t ((hall t).2 ht) (hopen t ht) ((eligible_iff hiv hc ht).2 hel')
    rw [ha] at hle
    unfold Interleave.deadline at hle
    unfold Chairman.deadline
    rwa [hc.count _ hs, hc.count _ ht, hiv.m] at hle

end Round

/-- The rounds of a pick, as long as they leave all streams open. -/
theorem counted_loop (hiv : Shares iv k) (hall : ∀ s, s ∈ opened ↔ s < k) (need : Nat) :
    ∀ {h counts : List Nat}, Counted iv k h counts →
      (∀ s < k, iv.Open (iv.loopCounts opened need counts h.length) s) →
      ∃ h', Counted iv k h' (iv.loopCounts opened need counts h.length) := by
  induction need with
  | zero => exact fun hc _ => ⟨_, hc⟩
  | succ need ih =>
    intro h counts hc hopen
    have hin : ∀ s ∈ opened, s < counts.length := fun s hs => hc.length ▸ (hall s).1 hs
    have hgrow := (loopCounts_spec iv opened (need + 1) counts h.length hin).2.1
    obtain ⟨s, a, hdue, hp⟩ := exists_due hiv hc hall fun s hs => (hgrow s).trans_lt (hopen s hs)
    have hchoice : (iv.scan opened counts h.length).choice = some s := by simp [Scan.choice, hdue]
    have hsk := Finset.mem_range.1 hp.mem
    have hnext : Counted iv k (s :: h) (counts.modify s (· + 1)) := by
      refine ⟨.cons hc.run hp, (length_modify ..).trans hc.length, fun t ht => ?_⟩
      rw [getD_modify_succ, hc.count t ht, hc.length, count_cons]
      simp only [hsk, and_true, beq_iff_eq, @eq_comm _ s t]
    simp only [loopCounts, hchoice] at hopen ⊢
    have hlen : (h.length : Int) + 1 = (s :: h).length := by simp
    rw [hlen] at hopen ⊢
    exact ih hnext hopen

/-- The counters of `d` are those of a run of the rule. -/
def Mixed (d : Dispenser) : Prop :=
  ∃ h, Counted d.interleave d.streams.length h (d.streams.map (·.next))

/-- Two streams or more, none of them at its limit. -/
def Flowing (d : Dispenser) : Prop :=
  2 ≤ d.streams.length ∧ ∀ s < d.streams.length, (d.stream s).next < d.limit s

def AcceptAll (d : Dispenser) : Prop :=
  ∀ l ∈ d.live.values, ∀ s < d.streams.length, s ∈ l.accept

theorem nexts_congr (hlen : d'.streams.length = d.streams.length)
    (hnext : ∀ s, (d'.stream s).next = (d.stream s).next) :
    d'.streams.map (·.next) = d.streams.map (·.next) := by
  refine ext_getElem (by simpa using hlen) fun s h1 h2 => ?_
  rw [← getD_eq_getElem _ 0 h1, ← getD_eq_getElem _ 0 h2, getD_nexts, getD_nexts, hnext]

theorem interleave_congr (hcfg : d'.cfg = d.cfg) (hdata : d'.data = d.data)
    (hlen : d'.streams.length = d.streams.length) : d'.interleave = d.interleave := by
  unfold Dispenser.interleave decls
  rw [hdata, hlen]
  congr 1
  exact map_congr_left fun t _ => limit_congr hcfg hdata t

structure SameCounters (d d' : Dispenser) : Prop where
  cfg : d'.cfg = d.cfg
  data : d'.data = d.data
  length : d'.streams.length = d.streams.length
  next : ∀ s, (d'.stream s).next = (d.stream s).next

theorem SameCounters.mixed (hsame : SameCounters d d') (h : Flowing d → Mixed d)
    (hflow : Flowing d') : Mixed d' := by
  have hd : Flowing d := by
    refine ⟨hsame.length ▸ hflow.1, fun s hs => ?_⟩
    rw [← hsame.next, ← limit_congr hsame.cfg hsame.data]
    exact hflow.2 s (hsame.length ▸ hs)
  unfold Mixed
  rw [interleave_congr hsame.cfg hsame.data hsame.length, hsame.length,
    nexts_congr hsame.length hsame.next]
  exact h hd

theorem shares_interleave (hb : Books d) (hflow : Flowing d) :
    Shares d.interleave d.streams.length := by
  cases hdata : d.data with
  | none =>
    have := hflow.1
    rw [(hb.nodata hdata).1] at this
    exact absurd this (by decide)
  | some decl =>
    obtain ⟨hvalid, hlen⟩ := hb.data decl hdata
    have hdecls : d.decls = decl.streams := by simp [decls, hdata]
    refine ⟨hflow.1, fun s hs => ?_, ?_, by simp [Dispenser.interleave, scale]⟩
    · have hs : s < decl.streams.length := hlen ▸ Finset.mem_range.1 hs
      have := (hvalid.streams _ (getElem_mem hs)).weight_pos
      simpa [Dispenser.interleave, hdecls, hs] using this
    · have := sum_range_getD (fun x : Int => x) 0 (decl.streams.map fun s => (s.weight : Int))
      rw [map_id', length_map, ← hlen] at this
      simpa [Dispenser.interleave, hdecls, Chairman.total] using this.symm

theorem Counted.givenSum (hc : Counted iv k h counts) : givenSum counts = h.length := by
  have hsum := sum_range_getD (fun c : Nat => (c : Int)) 0 counts
  rw [hc.length] at hsum
  refine hsum.symm.trans (.trans ?_ (sum_count hc.run.mem))
  exact Finset.sum_congr rfl fun s hs => congrArg _ (hc.count s (Finset.mem_range.1 hs))

/-- A claim moves the counters by rounds of the rule. -/
theorem mixed_collect (hb : Books d) (h : Flowing d → Mixed d) {accept : List Nat}
    (hall : ∀ s, s ∈ accept ↔ s < d.streams.length) (wanted : Nat)
    (hflow : Flowing (d.collect accept wanted).2) : Mixed (d.collect accept wanted).2 := by
  have hacc : ∀ s ∈ accept, s < d.streams.length := fun s => (hall s).1
  have hgave := gave_collect d accept wanted
  have hd : Flowing d := by
    refine ⟨hgave.length ▸ hflow.1, fun s hs => ?_⟩
    have := hflow.2 s (hgave.length ▸ hs)
    rw [(next_collect wanted hacc s).1, limit_congr hgave.cfg hgave.data] at this
    exact (Nat.le_add_right ..).trans_lt this
  have hdrain : SameCounters d (afterDrain d accept wanted) :=
    ⟨rfl, rfl, length_afterDrain, next_afterDrain d accept wanted⟩
  obtain ⟨picks, hc⟩ := h hd
  -- the counters after the collection are those the loop leaves
  have hloop : ∀ s, ((d.collect accept wanted).2.stream s).next = (d.interleave.loopCounts accept
      (drainStreams accept wanted d.streams).2.2 (d.streams.map (·.next))
        picks.length).getD s 0 := by
    intro s
    have hrun := pickedOf_pickFresh (d := afterDrain d accept wanted)
      (drainStreams accept wanted d.streams).2.2 (fun s hs => length_afterDrain.symm ▸ hacc s hs) s
    rw [next_afterDrain, interleave_congr hdrain.cfg hdrain.data hdrain.length,
      nexts_congr hdrain.length hdrain.next, run, hc.givenSum] at hrun
    exact (next_collect wanted hacc s).1.trans hrun
  have hrule := counted_loop (shares_interleave hb hd) hall
    (drainStreams accept wanted d.streams).2.2 hc
  generalize d.interleave.loopCounts accept _ _ _ = counts at hloop hrule
  obtain ⟨picks', hc'⟩ := hrule fun s hs => by
    unfold Interleave.Open
    rw [← hloop, getD_limits hs, ← limit_congr hgave.cfg hgave.data]
    exact hflow.2 s (hgave.length ▸ hs)
  refine ⟨picks', ?_⟩
  rw [interleave_congr hgave.cfg hgave.data hgave.length, hgave.length]
  refine ⟨hc'.run, by simp [hgave.length], fun s hs => ?_⟩
  rw [getD_nexts, hloop, hc'.count s hs]

/-- Every operation keeps the counters mixed. -/
theorem mixed_apply (hb : Books d) (hacc : AcceptAll d) (h : Flowing d → Mixed d) (o : Op)
    (hflow : Flowing (d.apply o)) : Mixed (d.apply o) := by
  have hgrows := grows_apply hb o
  have hquiet : o.takes d = 0 → Mixed (d.apply o) := by
    intro hzero
    have hnext : ∀ s, ((d.apply o).stream s).next = (d.stream s).next := fun s =>
      le_antisymm (by simpa [hzero] using hgrows.upper s) (hgrows.next s)
    cases hdata : d.data with
    | none =>
      -- the operation fixed the data: nothing was given out before
      have hnil := (hb.nodata hdata).1
      refine ⟨[], .nil, by simp, fun s _ => ?_⟩
      rw [getD_nexts, hnext]
      simp [stream, hnil]
      rfl
    | some decl =>
      have hdata' := hgrows.data decl hdata
      have hlen := ((hb.apply o).data decl hdata').2.trans (hb.data decl hdata).2.symm
      exact SameCounters.mixed ⟨hgrows.cfg, hdata'.trans hdata.symm, hlen, hnext⟩ h hflow
  cases o with
  | claim holder seq wanted now =>
    refine (claim_case ..).after (P := fun d' => Flowing d' → Mixed d') h h (fun l c hl => ?_) hflow
    have hl' : (touched d holder now).live.find holder = some l := hl
    have hall : ∀ s, s ∈ l.accept ↔ s < d.streams.length :=
      fun s => ⟨(hb.accept holder l hl).2.2 s, hacc l ((d.live.mem_values_iff l).2 ⟨holder, hl⟩) s⟩
    have hcollect := mixed_collect (d := touched d holder now) (hb.touched holder now) h hall wanted
    refine claimNew_cases (P := fun d' => Flowing d' → Mixed d') hl' wanted h (fun _ => ?_) ?_
    · unfold answerEmpty
      split
      · exact hcollect
      split <;> exact hcollect
    · exact hcollect
  | _ => exact hquiet rfl

/-- The runs in which every live holder accepts every stream. -/
def sharedRuns (cfg : DispenseConfig) (lease : Nat) : System World where
  init := (runs cfg lease).init
  step w w' := AcceptAll w.disp ∧ World.Step cfg lease w w'

theorem runs_of_shared (hr : (sharedRuns cfg lease).Reachable w) : (runs cfg lease).Reachable w :=
  System.reachable_of_simulates (S := sharedRuns cfg lease) (f := id) (fun _ hi => hi)
    (fun _ _ _ hs => .single hs.2) hr

/-- The counters are mixed now and in every record. -/
structure MixedOk (cfg : DispenseConfig) (w : World) : Prop where
  disp : Flowing w.disp → Mixed w.disp
  records : ∀ bytes log, (bytes, log) ∈ w.records →
    ∃ d, bytes = d.encodePersisted ∧ d.cfg = cfg ∧ Books d ∧ (Flowing d → Mixed d)

theorem MixedOk.step (hok : WorldOk cfg w) (h : MixedOk cfg w) (hacc : AcceptAll w.disp)
    (hs : World.Step cfg lease w w') : MixedOk cfg w' := by
  cases hs with
  | op o => exact ⟨mixed_apply hok.books hacc h.disp o, h.records⟩
  | drain => exact ⟨h.disp, h.records⟩
  | record =>
    refine ⟨h.disp, fun bytes log hm => ?_⟩
    rcases mem_cons.1 hm with heq | hm
    · cases heq
      exact ⟨w.disp, rfl, hok.config, hok.books, h.disp⟩
    · exact h.records bytes log hm
  | restart bytes log d hm hr =>
    obtain ⟨d₀, rfl, hcfg, hb, hmixed⟩ := h.records bytes log hm
    obtain ⟨queue, holders, hres, -⟩ := restore_inv hb hr
    have hsame : SameCounters d₀ d :=
      ⟨hres.cfg.trans hcfg.symm, hres.data, hres.length, fun s => (hres.stream s).1⟩
    exact ⟨hsame.mixed hmixed, h.records⟩

theorem mixed_reachable (hr : (sharedRuns cfg lease).Reachable w) (hflow : Flowing w.disp) :
    Mixed w.disp := by
  have hok : MixedOk cfg w := by
    refine System.invariant ?_ ?_ hr
    · intro w₀ h0
      cases h0
      exact ⟨fun hflow => absurd hflow.1 (Nat.not_succ_le_zero 1),
        fun _ _ hm => (not_mem_nil hm).elim⟩
    · rintro w₀ w₁ hr h ⟨hacc, hs⟩
      exact h.step (worldOk_reachable (runs_of_shared hr)) hacc hs
  exact hok.disp hflow

/-- The shares of the streams, and the next round of `pick_fresh`. -/
structure Interleaved (d : Dispenser) : Prop where
  /-- At most `1 - 1 / (2 * (k - 1))` positions more than `n * w / W`. -/
  ahead : ∀ s < d.streams.length, d.interleave.m * ((d.stream s).next * d.interleave.total
    - d.nextPosition * d.interleave.weights.getD s 0) ≤ (d.interleave.m - 1) * d.interleave.total
  /-- At most as many fewer. -/
  behind : ∀ s < d.streams.length, d.interleave.m * (d.nextPosition * d.interleave.weights.getD s 0
    - (d.stream s).next * d.interleave.total) ≤ (d.interleave.m - 1) * d.interleave.total
  /-- The stream furthest behind is never needed. -/
  due : ∀ opened, (∀ s, s ∈ opened ↔ s < d.streams.length) →
    (d.interleave.scan opened (d.streams.map (·.next)) d.nextPosition).due ≠ none

theorem fresh_interleaved (hr : (sharedRuns cfg lease).Reachable w) (hflow : Flowing w.disp) :
    Interleaved w.disp := by
  have hiv := shares_interleave (worldOk_reachable (runs_of_shared hr)).books hflow
  have hcard : 2 ≤ (Finset.range w.disp.streams.length).card := by simpa using hiv.two
  obtain ⟨h, hc⟩ := mixed_reachable hr hflow
  have hgiven : (w.disp.nextPosition : Int) = h.length := by
    rw [← hc.givenSum]
    exact Nat.cast_list_sum _
  have hnext : ∀ s < w.disp.streams.length, (w.disp.stream s).next = h.count s :=
    fun s hs => getD_nexts w.disp s ▸ hc.count s hs
  refine ⟨fun s hs => ?_, fun s hs => ?_, fun opened hall => ?_⟩
  · rw [hgiven, hnext s hs, hiv.m, hiv.total]
    exact hc.run.not_ahead hcard hiv.pos (Finset.mem_range.2 hs)
  · rw [hgiven, hnext s hs, hiv.m, hiv.total]
    exact hc.run.not_behind hcard hiv.pos (Finset.mem_range.2 hs)
  · rw [hgiven]
    obtain ⟨s, a, hdue, -⟩ := exists_due hiv hc hall fun s hs => by
      unfold Interleave.Open
      rw [getD_nexts, getD_limits hs]
      exact hflow.2 s hs
    rw [hdue]
    exact nofun

theorem shared_after (hr : (sharedRuns cfg lease).Reachable w) (ops : List Op)
    (hacc : ∀ n < ops.length, AcceptAll (w.after (ops.take n)).disp) :
    (sharedRuns cfg lease).Reachable (w.after ops) := by
  induction ops generalizing w with
  | nil => exact hr
  | cons o ops ih =>
    exact ih (hr.step ⟨hacc 0 (Nat.succ_pos _), .op w o⟩) fun n hn =>
      hacc (n + 1) (Nat.succ_lt_succ hn)

theorem fresh_interleaved_sample : Interleaved sampleWorld.disp := by
  have hr : (sharedRuns sampleConfig 10).Reachable sampleWorld := by
    refine shared_after (.init rfl) sampleOps ?_
    unfold AcceptAll
    decide +kernel
  exact fresh_interleaved hr ⟨by decide +kernel, by decide +kernel⟩

end Yeto.Dispense
