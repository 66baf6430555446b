/-
Fresh positions picked in one batch or in two: a pick of `a` positions leaves
the loop where a pick of `a + b` is after `a` rounds (`run_add`). A stream
that has become exhausted in between is not open in the second call; the scan
would have passed it over (`run_filter`).
-/
import Yeto.Dispense.Proofs.Runs

namespace Yeto.Dispense

open Lib Dispenser List Interleave

variable {iv : Interleave} {opened accept counts : List Nat} {d : Dispenser} {l : List Nat}
  {bound : Nat} {need s : Nat}

def givenSum (counts : List Nat) : Int := (counts.map fun c : Nat => (c : Int)).sum

theorem givenSum_modify {t : Nat} (h : t < counts.length) :
    givenSum (counts.modify t (· + 1)) = givenSum counts + 1 := by
  induction counts generalizing t with
  | nil => simp at h
  | cons c counts ih =>
    cases t with
    | zero => simp [givenSum]; omega
    | succ t =>
      have := ih (Nat.lt_of_succ_lt_succ h)
      simp [givenSum] at this ⊢
      omega

def Interleave.run (iv : Interleave) (opened : List Nat) (need : Nat)
    (counts : List Nat) : List Nat := iv.loopCounts opened need counts (givenSum counts)

theorem run_succ (hin : ∀ s ∈ opened, s < counts.length) :
    iv.run opened (need + 1) counts = match (iv.scan opened counts (givenSum counts)).choice with
        | none => counts
        | some s => iv.run opened need (counts.modify s (· + 1)) := by
  unfold run
  rw [loopCounts]
  cases hc : (iv.scan opened counts (givenSum counts)).choice with
  | none => rfl
  | some s => simp only [givenSum_modify (hin s (choice_some hc).1)]

theorem length_run (need : Nat) (hin : ∀ s ∈ opened, s < counts.length) :
    (iv.run opened need counts).length = counts.length := by
  induction need generalizing counts with
  | zero => rfl
  | succ need ih =>
    rw [run_succ hin]
    cases (iv.scan opened counts (givenSum counts)).choice with
    | none => rfl
    | some s => exact (ih (by simpa using hin)).trans (length_modify ..)

theorem run_add (a b : Nat) (hin : ∀ s ∈ opened, s < counts.length) :
    iv.run opened (a + b) counts = iv.run opened b (iv.run opened a counts) := by
  induction a generalizing counts with
  | zero => simp [run, loopCounts]
  | succ a ih =>
    rw [Nat.succ_add, run_succ hin, run_succ hin]
    cases hc : (iv.scan opened counts (givenSum counts)).choice with
    | none =>
      -- nothing is open any more, in the second run either
      cases b with
      | zero => rfl
      | succ b => simp [run_succ hin, hc]
    | some s => exact ih (by simpa using hin)

theorem scan_filter {keep : Nat → Bool} {given : Int}
    (hfull : ∀ s ∈ opened, keep s = false → ¬ iv.Open counts s) :
    iv.scan (opened.filter keep) counts given = iv.scan opened counts given := by
  unfold scan
  generalize (⟨none, none⟩ : Scan) = acc
  induction opened generalizing acc with
  | nil => rfl
  | cons s opened ih =>
    have hrest := ih fun t ht => hfull t (mem_cons_of_mem _ ht)
    by_cases hs : keep s = true
    · simpa [hs] using hrest _
    · have hskip : iv.scanStream counts (given + 1) acc s = acc := by
        have := hfull s mem_cons_self (by simpa using hs)
        exact if_pos (not_lt.1 this)
      simpa [hs, hskip] using hrest acc

theorem run_filter (keep : Nat → Bool) (hin : ∀ s ∈ opened, s < counts.length)
    (hfull : ∀ s ∈ opened, keep s = false → ¬ iv.Open counts s) :
    iv.run (opened.filter keep) need counts = iv.run opened need counts := by
  induction need generalizing counts with
  | zero => rfl
  | succ need ih =>
    rw [run_succ hin, run_succ fun s hs => hin s (mem_filter.1 hs).1, scan_filter hfull]
    cases hc : (iv.scan opened counts (givenSum counts)).choice with
    | none => rfl
    | some t =>
      refine ih (by simpa using hin) fun s hs hk => ?_
      have hold := hfull s hs hk
      unfold Interleave.Open at hold ⊢
      rw [getD_modify_succ]
      split <;> omega

theorem pickedOf_nonzeros : pickedOf (nonzeros l 0) s = l.getD s 0 := by
  by_cases hs : s ∈ (nonzeros l 0).map Prod.fst
  · obtain ⟨e, he, rfl⟩ := mem_map.1 hs
    rw [pickedOf_mem (nodup_nonzeros l 0) he]
    have hget := (mem_nonzeros.1 he).2.2
    simp at hget
    simp [hget]
  · rw [pickedOf_not_mem hs]
    by_contra hne
    refine hs (mem_map.2 ⟨(s, l.getD s 0), mem_nonzeros.2 ⟨?_, ?_, ?_⟩, rfl⟩)
    · exact Nat.pos_of_ne_zero (Ne.symm hne)
    · exact Nat.zero_le s
    · cases hl : l[s]? with
      | none => simp [hl] at hne
      | some n => simp [hl]

/-- A stream's counter after a pick is where the loop over the accepted
streams leaves it. -/
theorem pickedOf_pickFresh (need : Nat) (hacc : ∀ s ∈ accept, s < d.streams.length) (s : Nat) :
    (d.stream s).next + pickedOf (d.pickFresh accept need) s
      = (d.interleave.run accept need (d.streams.map (·.next))).getD s 0 := by
  have hloop := (pickLoop_getD d.interleave (accept.filter fun s => !d.exhausted s)
    need (d.streams.map (·.next)) (givenSum (d.streams.map (·.next)))
    (replicate d.streams.length 0) (by simp)).2 s
  have hfull : ∀ t ∈ accept, (!d.exhausted t) = false →
      ¬ d.interleave.Open (d.streams.map (·.next)) t := by
    intro t ht hk
    unfold Interleave.Open
    rw [getD_nexts, getD_limits (hacc t ht)]
    simpa [exhausted] using hk
  rw [pickFresh_eq need hacc, loopPicks, pickedOf_nonzeros,
    ← run_filter _ (by simpa using hacc) hfull, ← getD_nexts, Nat.add_comm]
  have hzero : (replicate d.streams.length 0).getD s 0 = 0 := by
    rw [getD_eq_getElem?_getD, getElem?_replicate]
    split <;> rfl
  rw [hzero, Nat.zero_add] at hloop
  exact hloop

theorem pickedOf_add (a b : Nat) (hacc : ∀ s ∈ accept, s < d.streams.length) :
    pickedOf (d.pickFresh accept a) s
        + pickedOf ((giveFresh (d.pickFresh accept a) d).2.pickFresh accept b) s
      = pickedOf (d.pickFresh accept (a + b)) s := by
  have hpicked := picked_pickFresh a hacc
  have hin : ∀ e ∈ d.pickFresh accept a, e.1 < d.streams.length :=
    fun e he => hacc e.1 (hpicked.each e he).1
  have hgave := gave_giveFresh (d.pickFresh accept a) d
  have hstream := stream_giveFresh _ d hin
  generalize (giveFresh (d.pickFresh accept a) d).2 = d' at *
  have hiv : d'.interleave = d.interleave := by
    unfold Dispenser.interleave decls
    rw [hgave.data, hgave.length]
    congr 1
    exact map_congr_left fun t _ => limit_congr hgave.cfg hgave.data t
  have hcounts : d'.streams.map (·.next) = d.interleave.run accept a (d.streams.map (·.next)) := by
    apply ext_getElem
    · rw [length_map, hgave.length, length_run _ (by simpa using hacc), length_map]
    · intro t h1 h2
      rw [← getD_eq_getElem _ 0 h1, ← getD_eq_getElem _ 0 h2, getD_nexts, (hstream t).1]
      exact pickedOf_pickFresh a hacc t
  have h2 := pickedOf_pickFresh b (fun t ht => hgave.length ▸ hacc t ht) s
  have h3 := pickedOf_pickFresh (a + b) hacc s
  rw [hiv, hcounts, ← run_add _ _ (by simpa using hacc)] at h2
  have hnext := (hstream s).1
  omega

/-- The integers of a round for stream `s`, with `b` due before it. -/
def Interleave.values (iv : Interleave) (counts : List Nat) (s b : Nat) : List Int :=
  let n := givenSum counts + 1
  let w := iv.weights.getD s 0
  let c : Int := counts.getD s 0
  let deficit := w * n - c * iv.total
  let a := iv.m * (c + 1) - 1
  [n, w * n, c * iv.total, deficit, iv.m * deficit, iv.m * (c + 1), a,
    a * iv.weights.getD b 0, iv.deadline counts b * w]

theorem natAbs_mul_le {x y : Int} {A B : Nat} (hx : x.natAbs ≤ A)
    (hy : y.natAbs ≤ B) : (x * y).natAbs ≤ A * B := by
  rw [Int.natAbs_mul]
  exact Nat.mul_le_mul hx hy

theorem values_lt (hn : (givenSum counts).natAbs ≤ 2 ^ 48)
    (hw : ∀ t, (iv.weights.getD t 0).natAbs ≤ 2 ^ 62) (hc : ∀ t, counts.getD t 0 ≤ 2 ^ 40)
    (htotal : iv.total.natAbs ≤ 2 ^ 70) (hm : iv.m.natAbs ≤ 2 ^ 9) (b : Nat) :
    ∀ v ∈ iv.values counts s b, v.natAbs < 2 ^ 127 := by
  have hdue : ∀ t, (iv.m * ((counts.getD t 0 : Int) + 1)).natAbs ≤ 2 ^ 9 * 2 ^ 41 := by
    intro t
    have hc' : ((counts.getD t 0 : Int) + 1).natAbs ≤ 2 ^ 41 := by
      have := hc t
      omega
    exact natAbs_mul_le hm hc'
  have hlast : ∀ t, (iv.deadline counts t).natAbs ≤ 2 ^ 51 := by
    intro t
    have := hdue t
    unfold deadline
    omega
  have hn' : (givenSum counts + 1).natAbs ≤ 2 ^ 49 := by omega
  have hwn := natAbs_mul_le (hw s) hn'
  have hct : ((counts.getD s 0 : Int) * iv.total).natAbs ≤ 2 ^ 40 * 2 ^ 70 :=
    natAbs_mul_le (hc s) htotal
  have hdef : (iv.weights.getD s 0 * (givenSum counts + 1)
      - (counts.getD s 0 : Int) * iv.total).natAbs ≤ 2 ^ 112 := by omega
  have hmd := natAbs_mul_le hm hdef
  have hab := natAbs_mul_le (hlast s) (hw b)
  have hba := natAbs_mul_le (hlast b) (hw s)
  have hs := hdue s
  intro v hv
  simp only [values, mem_cons, not_mem_nil, or_false] at hv
  rcases hv with rfl | rfl | rfl | rfl | rfl | rfl | rfl | rfl | rfl
  · omega
  · omega
  · omega
  · omega
  · omega
  · omega
  · exact lt_of_le_of_lt (hlast s) (by decide)
  · exact lt_of_le_of_lt hab (by decide)
  · exact lt_of_le_of_lt hba (by decide)

theorem givenSum_le {n : Nat} (hlen : l.length ≤ n) (h : ∀ c ∈ l, c ≤ bound) :
    (givenSum l).natAbs ≤ n * bound := by
  refine le_trans ?_ (Nat.mul_le_mul_right bound hlen)
  clear hlen
  induction l with
  | nil => simp [givenSum]
  | cons c l ih =>
    obtain ⟨hc, hl⟩ := forall_mem_cons.1 h
    have hrest := ih hl
    simp only [givenSum, map_cons, sum_cons, length_cons] at hrest ⊢
    rw [Nat.succ_mul]
    omega

theorem getD_le_iff : (∀ t, l.getD t 0 ≤ bound) ↔ ∀ c ∈ l, c ≤ bound := by
  constructor
  · intro h c hc
    obtain ⟨t, ht, rfl⟩ := mem_iff_getElem.1 hc
    exact getD_eq_getElem _ 0 ht ▸ h t
  · intro h t
    by_cases ht : t < l.length
    · exact getD_eq_getElem _ 0 ht ▸ h _ (getElem_mem ht)
    · rw [getD_eq_default l 0 (not_lt.1 ht)]
      exact Nat.zero_le bound

/-- The integers of a pick: the sums before the loop, and those of the
round after `k` rounds. -/
def Fits128 (d : Dispenser) (accept : List Nat) (k : Nat) : Prop :=
  (givenSum ((d.decls.map (·.weight)).take k)).natAbs < 2 ^ 127
    ∧ (givenSum ((d.streams.map (·.next)).take k)).natAbs < 2 ^ 127
    ∧ d.interleave.m.natAbs < 2 ^ 127 ∧ ∀ s b, ∀ v ∈ d.interleave.values
      (d.interleave.run accept k (d.streams.map (·.next))) s b, v.natAbs < 2 ^ 127

theorem fits128 (hacc : ∀ s ∈ accept, s < d.streams.length) (hstreams : d.streams.length ≤ 256)
    (hdecls : d.decls.length ≤ 256) (hweight : ∀ x ∈ d.decls, x.weight ≤ 2 ^ 62)
    (hnext : ∀ st ∈ d.streams, st.next ≤ 2 ^ 40) {k : Nat} : Fits128 d accept k := by
  have hweights : ∀ c ∈ d.decls.map (·.weight), c ≤ 2 ^ 62 := by simpa using hweight
  have hnexts : ∀ c ∈ d.streams.map (·.next), c ≤ 2 ^ 40 := by simpa using hnext
  have hlimits : ∀ c ∈ d.interleave.limits, c ≤ 2 ^ 40 := by
    simp only [Dispenser.interleave, mem_map, forall_exists_index, and_imp,
      forall_apply_eq_imp_iff₂]
    exact fun t _ => limit_le d t
  have hin : ∀ s ∈ accept, s < (d.streams.map (·.next)).length := by simpa using hacc
  have hcount : ∀ t, (d.interleave.run accept k
      (d.streams.map (·.next))).getD t 0 ≤ 2 ^ 40 := fun t =>
    ((loopCounts_spec _ _ k _ _ hin).2.2.1 t).trans
      (max_le (getD_le_iff.2 hnexts t) (getD_le_iff.2 hlimits t))
  have hgiven := givenSum_le ((length_run k hin).trans_le (by simpa using hstreams))
    (getD_le_iff.1 hcount)
  have htotal : d.interleave.total.natAbs ≤ 256 * 2 ^ 62 := by
    have := givenSum_le (by simpa using hdecls) hweights
    simpa [Dispenser.interleave, givenSum, Function.comp_def] using this
  have hm : d.interleave.m.natAbs ≤ 2 ^ 9 := by
    dsimp only [Dispenser.interleave]
    omega
  have hw : ∀ t, (d.interleave.weights.getD t 0).natAbs ≤ 2 ^ 62 := by
    intro t
    have := getD_le_iff.2 hweights t
    cases ht : d.decls[t]? <;> simp_all [Dispenser.interleave]
  have hsum : ∀ {l : List Nat} {bound : Nat}, l.length ≤ 256 → bound ≤ 2 ^ 62 →
      (∀ c ∈ l, c ≤ bound) → (givenSum (l.take k)).natAbs < 2 ^ 127 := by
    intro l bound hlen hb hl
    have := givenSum_le ((length_take_le' k l).trans hlen) fun c hc => hl c (mem_of_mem_take hc)
    omega
  refine ⟨hsum (by simpa using hdecls) le_rfl hweights,
    hsum (by simpa using hstreams) (by decide) hnexts, by omega, fun s b => ?_⟩
  exact values_lt (by omega) hw hcount (by omega) hm b

/-- Fresh picks: the same in batches, all that is asked for or left, within
the limits, by the loop whatever the number of streams, and inside the
integers of the source. -/
theorem fresh_batches (hacc : ∀ s ∈ accept, s < d.streams.length) :
    (∀ a b s, pickedOf (d.pickFresh accept a) s
        + pickedOf ((giveFresh (d.pickFresh accept a) d).2.pickFresh accept b) s
      = pickedOf (d.pickFresh accept (a + b)) s)
    ∧ (∀ need, Picked d accept need (d.pickFresh accept need)
      ∧ d.pickFresh accept need = loopPicks d accept need)
    ∧ (d.streams.length ≤ 256 → d.decls.length ≤ 256 → (∀ x ∈ d.decls, x.weight ≤ 2 ^ 62) →
      (∀ st ∈ d.streams, st.next ≤ 2 ^ 40) → ∀ k, Fits128 d accept k) :=
  ⟨fun a b _ => pickedOf_add a b hacc,
    fun need => ⟨picked_pickFresh need hacc, pickFresh_eq need hacc⟩,
    fun h1 h2 h3 h4 _ => fits128 hacc h1 h2 h3 h4⟩

theorem fresh_batches_sample : pickedOf (sampleWorld.disp.pickFresh [0, 1] 2) 1
        + pickedOf ((giveFresh (sampleWorld.disp.pickFresh [0, 1] 2)
          sampleWorld.disp).2.pickFresh [0, 1] 3) 1
      = pickedOf (sampleWorld.disp.pickFresh [0, 1] 5) 1 ∧ Fits128 sampleWorld.disp [0, 1] 2 := by
  have hacc : ∀ s ∈ [0, 1], s < sampleWorld.disp.streams.length := by decide +kernel
  obtain ⟨hadd, -, hfits⟩ := fresh_batches hacc
  refine ⟨hadd 2 3 1, hfits ?_ ?_ ?_ ?_ 2⟩
  all_goals decide +kernel

end Yeto.Dispense
