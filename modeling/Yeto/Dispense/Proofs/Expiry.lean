/-
What an expiry sweep leaves behind. The SHARED table remembers the last
`RETIRED_LIMIT` retirements only: a holder that is neither live nor remembered
is kept, with its rows. That is the only way a dead holder survives a sweep
(`swept_iff`).
-/
import Yeto.Dispense.Proofs.Answers

namespace Yeto.Dispense

open Lib Dispenser List SortedMap Members

variable {n now : Nat} {h : Holder}

def Current (m : Members) (now : Nat) (h : Holder) : Prop :=
  ∃ t, m.lastSeen.find h = some t ∧ now - t < m.lease

/-- The retired record a sweep at `now` leaves. -/
def recordAfter (m : Members) (now : Nat) : List Holder :=
  (m.retiredOrder ++ m.expired now).rtake retiredLimit

variable {m : Members}

theorem isRetired_expire (hm : m.Ok) :
    (m.expire now).2.isRetired h = true ↔ h ∈ recordAfter m now := by
  have hnew : ∀ x ∈ m.expired now, m.isRetired x = false := by
    intro x hx
    obtain ⟨t, ht, -⟩ := mem_expired.1 hx
    exact hm.fresh x ((SortedMap.contains_iff _ _).2 ⟨t, ht⟩)
  rw [(Members.ok_expire hm now).isRetired_iff]
  unfold Members.expire
  rw [retired_retireAll hm .expired (sorted_expired m now).nodup hnew]
  rfl

theorem members_reclaim {d : Dispenser} (k : Holder) {reason : ReclaimReason} :
    (d.reclaim k reason).2.members.lease = d.members.lease
      ∧ ∀ h, h ≠ k → (d.reclaim k reason).2.members.lastSeen.find h
        = d.members.lastSeen.find h := by
  cases hl : d.live.find k with
  | none =>
    rw [reclaim_none reason hl]
    exact ⟨rfl, fun h _ => rfl⟩
  | some l =>
    rw [reclaim_some reason hl]
    refine ⟨retire_lease _ _ _, fun h hne => ?_⟩
    show (d.members.retire k reason.retired).lastSeen.find h = _
    rw [retire_lastSeen, find_erase_ne _ hne]

theorem members_reclaims {es : List (Holder × ReclaimReason)} (d : Dispenser) :
    (reclaimAll es d).members.lease = d.members.lease ∧ ∀ h, h ∉ es.map Prod.fst →
        (reclaimAll es d).members.lastSeen.find h = d.members.lastSeen.find h := by
  induction es generalizing d with
  | nil => exact ⟨rfl, fun h _ => rfl⟩
  | cons e es ih =>
    obtain ⟨h1, h2⟩ := ih (d.reclaim e.1 e.2).2
    obtain ⟨m1, m2⟩ := members_reclaim e.1
    refine ⟨h1.trans m1, fun h hnot => ?_⟩
    rw [map_cons, mem_cons, not_or] at hnot
    exact (h2 h hnot.2).trans (m2 h hnot.1)

section Sweep

variable {d : Dispenser}

theorem find_live_expire (hb : Books d) : (d.expire now).2.live.find h
      = if h ∈ recordAfter d.members now then none else d.live.find h := by
  obtain ⟨es, hes, heq⟩ := expire_eq d now
  have hmem : h ∈ es.map Prod.fst ↔ d.live.contains h = true ∧ h ∈ recordAfter d.members now := by
    rw [hes, List.mem_filter, isRetired_expire hb.members, mem_keys_iff, SortedMap.contains_iff]
  rw [heq, find_live_reclaims]
  by_cases hin : h ∈ recordAfter d.members now
  · rw [if_pos hin]
    cases hl : d.live.find h with
    | none => exact ite_self _
    | some l => exact if_pos (hmem.2 ⟨(SortedMap.contains_iff _ _).2 ⟨l, hl⟩, hin⟩)
  · rw [if_neg hin]
    exact if_neg fun h => hin (hmem.1 h).2

theorem current_expire (hb : Books d) (hkept : h ∉ recordAfter d.members now) :
    Current (d.expire now).2.members now h ↔ Current d.members now h := by
  obtain ⟨es, hes, heq⟩ := expire_eq d now
  have hnot : h ∉ es.map Prod.fst := by
    rw [hes, List.mem_filter, isRetired_expire hb.members]
    exact fun hin => hkept hin.2
  obtain ⟨hlease, hseen⟩ := members_reclaims { d with members := (d.members.expire now).2 }
  have hlease' := hlease.trans (lease_retireAll _ _ _)
  have hseen' := (hseen h hnot).trans (find_lastSeen_retireAll _ _ _ _)
  unfold Current
  rw [heq, hlease', hseen']
  by_cases hex : h ∈ d.members.expired now
  · obtain ⟨t, ht, hold⟩ := mem_expired.1 hex
    rw [if_pos hex]
    refine iff_of_false (fun hno => ?_) fun hno => ?_
    · obtain ⟨t', ht', -⟩ := hno
      cases ht'
    · obtain ⟨t', ht', hnew⟩ := hno
      obtain rfl := Option.some.inj (ht.symm.trans ht')
      omega
  · rw [if_neg hex]

/-- What a sweep should leave: every holder has a running lease, so has
the holder of every block, and so has the one a new claim waits for. -/
structure Swept (d : Dispenser) (now : Nat) : Prop where
  live : ∀ h, d.live.contains h = true → Current d.members now h
  held : ∀ id b, d.blocks.find id = some b → Current d.members now b.holder
  waits : ∀ holder l seq wanted t d', d.live.find holder = some l →
    l.Newer seq → d.claim holder seq wanted t = (.ok .wait, d') →
    ∃ id b, d.blocks.find id = some b ∧ Current d.members now b.holder
      ∧ ∃ sp ∈ b.spans, streamOf sp.start ∈ l.accept

theorem wait_held (hb : Books d) {holder : Holder} {l : Live}
    (hl : d.live.find holder = some l) {seq wanted t : Nat} {d' : Dispenser} (hnew : l.Newer seq)
    (h : d.claim holder seq wanted t = (.ok .wait, d')) : ∃ id b, d.blocks.find id = some b
      ∧ ∃ sp ∈ b.spans, streamOf sp.start ∈ l.accept := by
  cases (claim_answer hb hl hnew h).1 with
  | wait _ hany => exact holdsAny_iff.1 hany

theorem swept_of_live (hb : Books d) (h : ∀ h, d.live.contains h = true → Current d.members now h) :
    Swept d now := by
  have hheld : ∀ id b, d.blocks.find id = some b → Current d.members now b.holder := by
    intro id b hf
    obtain ⟨l, hl, -⟩ := hb.owner id b hf
    exact h b.holder ((SortedMap.contains_iff _ _).2 ⟨l, hl⟩)
  refine ⟨h, hheld, fun holder l seq wanted t d' hl hnew hclaim => ?_⟩
  obtain ⟨id, b, hf, hsp⟩ := wait_held hb hl hnew hclaim
  exact ⟨id, b, hf, hheld id b hf, hsp⟩

theorem swept_iff (hb : Books d) (now : Nat) :
    Swept (d.expire now).2 now ↔ ∀ h, d.live.contains h = true →
      Current d.members now h ∨ h ∈ recordAfter d.members now := by
  have hcontains : ∀ h, (d.expire now).2.live.contains h = true
      ↔ h ∉ recordAfter d.members now ∧ d.live.contains h = true := by
    intro h
    unfold SortedMap.contains
    rw [find_live_expire hb]
    by_cases hin : h ∈ recordAfter d.members now <;> simp [hin]
  constructor
  · intro hs h hh
    by_cases hin : h ∈ recordAfter d.members now
    · exact .inr hin
    · exact .inl ((current_expire hb hin).1 (hs.live h ((hcontains h).2 ⟨hin, hh⟩)))
  · intro hcond
    refine swept_of_live (hb.expire now) fun h hh => ?_
    obtain ⟨hin, hlive⟩ := (hcontains h).1 hh
    rcases hcond h hlive with hcur | hrec
    · exact (current_expire hb hin).2 hcur
    · exact absurd hrec hin

end Sweep

section Runs

variable {cfg : DispenseConfig} {lease : Nat} {w : World}

/-- After a sweep no row stays with a dead holder, exactly if every holder
has a running lease or is still remembered as retired. -/
theorem expire_sweeps (hr : (runs cfg lease).Reachable w) (now : Nat) :
    Swept (w.disp.expire now).2 now ↔
      ∀ h, w.disp.live.contains h = true → Current w.disp.members now h
        ∨ h ∈ recordAfter w.disp.members now := swept_iff (worldOk_reachable hr).books now

end Runs

theorem expire_sweeps_sample : Swept (sampleWorld.disp.expire 12).2 12 := by
  refine (expire_sweeps (reachable_after (reachable_start sampleConfig 10)
    sampleOps) 12).2 fun h hh => .inr ?_
  have hkeys : sampleWorld.disp.live.keys = [⟨0, 7⟩] := by decide +kernel
  have hrecord : recordAfter sampleWorld.disp.members 12 = [⟨0, 7⟩] := by decide +kernel
  show h ∈ recordAfter sampleWorld.disp.members 12
  rw [hrecord, ← hkeys]
  exact (mem_keys_iff _ _).2 ((SortedMap.contains_iff _ _).1 hh)

def crowdMember (i : Nat) : Holder := ⟨Fin.ofNat _ (i + 1), 1⟩

def crowd (n : Nat) : List Op := (List.range n).map fun i => .memberJoin (crowdMember i) 0

def crowdWorld (n : Nat) : World := ((startWorld sampleConfig 10).after
    [.openWith ⟨0, 7⟩ sampleData none 0]).after (crowd n)

/-- The table after `n` of the crowd have joined, behind the island. -/
structure Crowded (n : Nat) (m : Members) : Prop where
  lease : m.lease = 10
  seen : m.lastSeen.entries = (⟨0, 7⟩, 0) :: (List.range n).map fun i => (crowdMember i, 0)
  current : ∀ id, n < id.val → m.current.find id = none
  order : m.retiredOrder = []
  set : m.retiredSet = .empty

theorem Crowded.island (h : Crowded n m) : m.lastSeen.find ⟨0, 7⟩ = some 0 := by
  rw [← mem_entries_iff, h.seen]
  exact mem_cons_self

theorem Crowded.join (h : Crowded n m) (hn : n + 1 < 4294967296) :
    Crowded (n + 1) (joinElsewhere m (crowdMember n) 0) := by
  have hid {i : Nat} (hi : i ≤ n) : (crowdMember i).learnerId.val = i + 1 :=
    Nat.mod_eq_of_lt (by omega)
  have hbefore : ∀ e ∈ m.lastSeen.entries, e.1 < crowdMember n := by
    intro e he
    refine Holder.lt_of_id_lt ?_
    rw [h.seen, mem_cons] at he
    rw [hid le_rfl]
    rcases he with rfl | he
    · exact Nat.succ_pos n
    · obtain ⟨i, hi, rfl⟩ := mem_map.1 he
      have hlt := List.mem_range.1 hi
      rw [hid hlt.le]
      omega
  have hnew : m.lastSeen.find (crowdMember n) = none :=
    (find_eq_none_iff _ _).2 fun v hv => lt_irrefl _ (hbefore _ hv)
  have hcur : m.currentOf (crowdMember n).learnerId = none := by
    unfold currentOf
    rw [h.current _ (by rw [hid le_rfl]; omega)]
    rfl
  have hjoin : joinElsewhere m (crowdMember n) 0 = { m with
          current := m.current.insert (crowdMember n).learnerId 1
          lastSeen := m.lastSeen.insert (crowdMember n) 0 } := by
    have hret : m.isRetired (crowdMember n) = false := by
      unfold isRetired
      rw [h.set]
      rfl
    unfold joinElsewhere Members.join
    rw [hret, (contains_eq_false_iff _ _).2 hnew, hcur]
    rfl
  rw [hjoin]
  refine ⟨h.lease, ?_, fun id hlt => ?_, h.order, h.set⟩
  · show insertList _ _ m.lastSeen.entries = _
    rw [insertList_last hbefore, h.seen, range_succ, map_append]
    rfl
  · refine (find_insert_ne _ _ ?_).trans (h.current id (by omega))
    rintro rfl
    rw [hid le_rfl] at hlt
    omega

theorem crowdWorld_succ : (crowdWorld (n + 1)).disp
    = (crowdWorld n).disp.apply (.memberJoin (crowdMember n) 0) := by
  unfold crowdWorld crowd World.after
  rw [range_succ, map_append, foldl_append]
  rfl

theorem crowded (n : Nat) : n < 4294967295 → Crowded n (crowdWorld n).disp.members
      ∧ (crowdWorld n).disp.live.contains ⟨0, 7⟩ = true := by
  induction n with
  | zero =>
    intro _
    refine ⟨⟨rfl, rfl, fun id hid => ?_, rfl, rfl⟩, rfl⟩
    refine (find_insert_ne SortedMap.empty 7 (k := 0) ?_).trans rfl
    rintro rfl
    exact absurd hid (lt_irrefl _)
  | succ n ih =>
    intro hn
    obtain ⟨h1, h2⟩ := ih (by omega)
    rw [crowdWorld_succ]
    exact ⟨h1.join (by omega), h2⟩

theorem reachable_crowd : (runs sampleConfig 10).Reachable (crowdWorld n) :=
  reachable_after (reachable_after (reachable_start sampleConfig 10) _) _

theorem Crowded.forgotten (h : Crowded n m) (hn : retiredLimit ≤ n) :
    (⟨0, 7⟩ : Holder) ∉ recordAfter m 10 := by
  have hexpired : m.expired 10 = ⟨0, 7⟩ :: (List.range n).map crowdMember := by
    unfold expired
    rw [h.lease, h.seen, filter_eq_self.2, map_cons, map_map]
    · rfl
    · simp
  unfold recordAfter
  rw [h.order, nil_append, hexpired, rtake_cons_of_lt (by simpa [Nat.lt_succ_iff] using hn)]
  intro hin
  obtain ⟨i, -, heq⟩ := mem_map.1 (mem_of_mem_drop hin)
  exact absurd (congrArg Holder.incarnation heq) (show (1 : U64) ≠ 7 by decide)

/-- One sweep over the island and `RETIRED_LIMIT` other members, all of
them silent for the lease, leaves the island its rows. -/
theorem crowded_sweep_keeps_dead_holder : (runs sampleConfig 10).Reachable (crowdWorld 4096)
      ∧ ¬ Swept ((crowdWorld 4096).disp.expire 10).2 10 := by
  obtain ⟨hcrowd, hlive⟩ := crowded 4096 (by decide)
  refine ⟨reachable_crowd, fun hswept => ?_⟩
  have hcond := (swept_iff (worldOk_reachable reachable_crowd).books 10).1 hswept ⟨0, 7⟩ hlive
  rcases hcond with hcur | hrec
  · obtain ⟨t, ht, hlt⟩ := hcur
    rw [hcrowd.island] at ht
    rw [hcrowd.lease, ← Option.some.inj ht] at hlt
    omega
  · exact hcrowd.forgotten (by decide) hrec

end Yeto.Dispense
