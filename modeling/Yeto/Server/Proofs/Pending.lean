/-
The pending map of a forwarder over whole runs (`syncer/src/resend.rs`).

A call changes one fragment at a time, so the invariant is about one fragment
(`Slot.Ok`). `pop` takes an entry with a target while there is one, so each pop
meets one target however many versions are offered in between (`exec_unmet`).
Every version offered is pending, or one at least as new was popped or marked
sent; a marked one need not have been offered.
-/
import Yeto.Lib.System
import Yeto.Server.Resend

namespace Yeto.Server

open Lib Downlink SortedMap Function Option

namespace Pending

variable {m m' : Pending} {e : Nat × Nat × List F32}

theorem offer_cases (m : Pending) (p version : Nat) (values : List F32) :
    ((m.offer p version values).2 = m ∧ (p < m.fragments →
        (∃ e, m.entries.find p = some e ∧ version ≤ e.1)
          ∨ ∃ sent, m.sent.find p = some sent ∧ version ≤ sent)) ∨ ((m.offer p version values).2
          = { m with entries := m.entries.insert p (version, values) }
        ∧ (∀ e, m.entries.find p = some e → e.1 < version)
        ∧ ∀ sent, m.sent.find p = some sent → sent < version) := by
  unfold offer
  by_cases hp : p ≥ m.fragments
  · simp [hp, not_lt.2 hp]
  by_cases hsent : (m.sent.find p).any fun sent => decide (sent ≥ version)
  · simp only [hp, hsent, if_false, if_true]
    simp only [any_eq_true, decide_eq_true_eq] at hsent
    exact .inl ⟨trivial, fun _ => .inr hsent⟩
  by_cases hold : (m.entries.find p).any fun e => decide (e.1 ≥ version)
  · simp only [hp, hsent, hold, if_false, if_true, Bool.false_eq_true]
    simp only [any_eq_true, decide_eq_true_eq] at hold
    exact .inl ⟨trivial, fun _ => .inl hold⟩
  · simp only [hp, hsent, hold, if_false, Bool.false_eq_true]
    simp only [any_eq_true, decide_eq_true_eq, not_exists, not_and, not_le] at hsent hold
    exact .inr ⟨trivial, hold, hsent⟩

theorem pop_some (h : m.pop = some (e, m')) : m.entries.find e.1 = some e.2
      ∧ (∀ p x, m.targets.contains p = true → m.entries.find p = some x →
        m.targets.contains e.1 = true) ∧ m' = { m with
        entries := m.entries.erase e.1
        sent := m.sent.insert e.1 e.2.1
        targets := if (m.targets.find e.1).any (fun target => decide (e.2.1 ≥ target))
          then m.targets.erase e.1 else m.targets } := by
  unfold pop at h
  cases harg : m.entries.entries.argmin m.sendKey with
  | none => simp [harg] at h
  | some e₀ =>
    simp only [harg, some.injEq, Prod.mk.injEq] at h
    obtain ⟨rfl, rfl⟩ := h
    refine ⟨(mem_entries_iff _ _ _).1 (List.argmin_mem harg), ?_, rfl⟩
    intro p x hp hx
    have hle := List.le_of_mem_argmin ((mem_entries_iff m.entries p x).2 hx) harg
    by_contra hno
    simp [sendKey, hp, hno, Prod.Lex.toLex_le_toLex] at hle

theorem pop_none (h : m.pop = none) (p : Nat) : m.entries.find p = none := by
  unfold pop at h
  cases harg : m.entries.entries.argmin m.sendKey with
  | none =>
    have hnil := List.argmin_eq_none.1 harg
    simp [find_eq_none_iff, hnil]
  | some e => simp [harg] at h

theorem find_markSent (m : Pending) (p version : Nat) :
    (m.markSent p version).sent.find p = m.sent.find p
      ∨ (m.markSent p version).sent.find p = some version := by
  unfold markSent
  by_cases hp : p < m.fragments
  · cases hs : m.sent.find p with
    | none => simp [hp]
    | some sent => rcases max_choice sent version with h | h <;> simp [hp, h]
  · simp [hp]

end Pending

/-- What the map holds of one fragment, and what was done with it, newest
first. -/
structure Slot where
  entry : Option (Nat × List F32)
  sent : Option Nat
  target : Option Nat
  offered : List Nat
  popped : List Nat
  marked : List Nat

namespace Slot

def Covers (a : Slot) (v : Nat) : Prop :=
  (∃ e, a.entry = some e ∧ v ≤ e.1) ∨ ∃ sent, a.sent = some sent ∧ v ≤ sent

structure Ok (inside : Prop) (a : Slot) : Prop where
  target : ∀ t, a.target = some t → ∃ e, a.entry = some e ∧ t ≤ e.1
  entry : ∀ e, a.entry = some e → e.1 ∈ a.offered ∧ ∀ sent, a.sent = some sent → sent < e.1
  sent : ∀ sent, a.sent = some sent → sent ∈ a.popped ∨ sent ∈ a.marked
  popped : ∀ v ∈ a.popped, v ∈ a.offered ∧ ∃ sent, a.sent = some sent ∧ v ≤ sent
  increasing : a.popped.Pairwise (· > ·)
  offered : inside → ∀ v ∈ a.offered, a.Covers v

variable {a : Slot} {inside : Prop} {e : Nat × List F32} {v : Nat}

section

variable (h : a.Ok inside)
include h

theorem Ok.ignore (hold : inside → a.Covers v) :
    Ok inside { a with offered := v :: a.offered } := by
  obtain ⟨htarget, hentry, hsent, hpopped, hinc, hoffered⟩ := h
  constructor <;> grind [Covers]

theorem Ok.offer (hlt : ∀ x, a.entry = some x → x.1 < e.1)
    (hnew : ∀ sent, a.sent = some sent → sent < e.1) :
    Ok inside { a with entry := some e, offered := e.1 :: a.offered } := by
  obtain ⟨htarget, hentry, hsent, hpopped, hinc, hoffered⟩ := h
  constructor <;> grind [Covers]

theorem Ok.require (he : a.entry = some e) (hv : v ≤ e.1) : Ok inside { a with target := some v } :=
  { h with target := fun _ ht => ⟨e, he, some.inj ht ▸ hv⟩ }

theorem Ok.pop (he : a.entry = some e) : Ok inside { a with
      entry := none, sent := some e.1, target := none
      popped := e.1 :: a.popped } := by
  obtain ⟨htarget, hentry, hsent, hpopped, hinc, hoffered⟩ := h
  constructor <;> grind [Covers, List.pairwise_cons]

theorem Ok.markSent (hnew : a.offered = []) {sent : Option Nat}
    (hsent : sent = a.sent ∨ sent = some v) :
    Ok inside { a with sent, marked := v :: a.marked } := by
  obtain ⟨htarget, hentry, hold, hpopped, hinc, hoffered⟩ := h
  constructor <;> grind

end

end Slot

inductive ResendOp
  | offer (p version : Nat) (values : List F32)
  | requirePending
  | pop
  | markSent (p version : Nat)
deriving DecidableEq

/-- The map with its count of unmet targets, and what was done with each
fragment, newest first. -/
structure ResendRun where
  pending : Pending
  unmet : Nat
  offered : Nat → List Nat
  popped : Nat → List Nat
  marked : Nat → List Nat

namespace ResendRun

def start (fragments : Nat) : ResendRun :=
  ⟨.new fragments, 0, fun _ => [], fun _ => [], fun _ => []⟩

/-- The initial cut goes out before its fragments are offered. -/
def allowed (s : ResendRun) : ResendOp → Bool
  | .markSent p _ => (s.offered p).isEmpty
  | _ => true

def exec (s : ResendRun) : ResendOp → ResendRun
  | .offer p version values =>
    { s with
      pending := (s.pending.offer p version values).2
      offered := update s.offered p (version :: s.offered p) }
  | .requirePending =>
    -- a fragment is pending once, so the loop finds its slot as it was
    { s with
      pending := s.pending.requirePending
      unmet := s.unmet + s.pending.entries.entries.countP s.pending.untargeted }
  | .pop =>
    match s.pending.pop with
    | none => s
    | some (e, pending) =>
      { s with
        pending
        unmet := if (s.pending.targets.find e.1).any fun target =>
            decide (e.2.1 ≥ target) then s.unmet - 1 else s.unmet
        popped := update s.popped e.1 (e.2.1 :: s.popped e.1) }
  | .markSent p version =>
    { s with
      pending := s.pending.markSent p version
      marked := update s.marked p (version :: s.marked p) }

abbrev runs (fragments : Nat) : System ResendRun :=
  .guarded (start fragments) allowed fun s op => some (s.exec op)

variable {n : Nat} {s s' : ResendRun} {e : Nat × Nat × List F32}

def slot (s : ResendRun) (p : Nat) : Slot :=
  ⟨s.pending.entries.find p, s.pending.sent.find p, s.pending.targets.find p,
    s.offered p, s.popped p, s.marked p⟩

structure Ok (n : Nat) (s : ResendRun) : Prop where
  fragments : s.pending.fragments = n
  unmet : s.unmet = s.pending.targets.size
  slots : ∀ p, (s.slot p).Ok (p < n)

theorem ok_start (n : Nat) : Ok n (start n) := by
  refine ⟨rfl, rfl, fun p => ?_⟩
  constructor <;> simp [slot, start, Pending.new, SortedMap.find_empty]

section

variable (h : Ok n s)
include h

theorem Ok.change (hfrags : s'.pending.fragments = n)
    (hunmet : s'.unmet = s'.pending.targets.size) (p : Nat) (hslot : (s'.slot p).Ok (p < n))
    (hrest : ∀ q ≠ p, s'.slot q = s.slot q) : Ok n s' := by
  refine ⟨hfrags, hunmet, fun q => ?_⟩
  by_cases hq : q = p
  · exact hq ▸ hslot
  · exact hrest q hq ▸ h.slots q

theorem Ok.offer (p version : Nat) (values : List F32) :
    Ok n (s.exec (.offer p version values)) := by
  rcases s.pending.offer_cases p version values with ⟨hm, hold⟩ | ⟨hm, hlt, hnew⟩
  all_goals
    refine h.change (by simp [exec, hm, h.fragments])
      (by simp [exec, hm, h.unmet]) p ?_ fun q hq => ?_
  · have hok := (h.slots p).ignore fun hp => hold (h.fragments ▸ hp)
    simpa [slot, exec, hm] using hok
  · simp [slot, exec, hm, hq]
  · simpa [slot, exec, hm] using (h.slots p).offer (e := (version, values)) hlt hnew
  · simp [slot, exec, hm, hq, find_insert_ne]

theorem Ok.require (he : s.pending.entries.find e.1 = some e.2) :
    Ok n { s with
      pending := s.pending.require e
      unmet := s.unmet + if s.pending.untargeted e then 1 else 0 } := by
  refine h.change h.fragments ?_ e.1 ?_ fun q hq => by
    simp [slot, Pending.require, find_insert_ne _ _ hq]
  all_goals cases ht : s.pending.targets.find e.1
  · simp [Pending.require, Pending.untargeted, ht, h.unmet, size_insert_new _ ht]
  · simp [Pending.require, Pending.untargeted, ht, h.unmet, size_insert_of_some _ ht]
  · simpa [slot, Pending.require, ht] using (h.slots e.1).require he le_rfl
  · next t =>
    obtain ⟨x, hx, hle⟩ := (h.slots e.1).target t ht
    obtain rfl := some.inj (he.symm.trans hx)
    simpa [slot, Pending.require, ht] using (h.slots e.1).require he (max_le hle le_rfl)

omit h in
theorem Ok.requireAll (l : List (Nat × Nat × List F32)) : ∀ s : ResendRun, Ok n s →
    (l.map Prod.fst).Nodup → (∀ e ∈ l, s.pending.entries.find e.1 = some e.2) →
    Ok n { s with
      pending := l.foldl Pending.require s.pending
      unmet := s.unmet + l.countP s.pending.untargeted } := by
  induction l with
  | nil => exact fun s hok _ _ => hok
  | cons e l ih =>
    intro s hok hnodup hl
    obtain ⟨hnew, hnodup⟩ := List.nodup_cons.1 hnodup
    have hrest := ih _ (hok.require (hl e List.mem_cons_self)) hnodup
      fun x hx => hl x (List.mem_cons_of_mem _ hx)
    have hcount : l.countP (s.pending.require e).untargeted = l.countP s.pending.untargeted := by
      refine List.countP_congr fun x hx => ?_
      have hne : x.1 ≠ e.1 := fun heq => hnew (heq ▸ List.mem_map_of_mem hx)
      simp [Pending.untargeted, Pending.require, find_insert_ne _ _ hne]
    rw [hcount, add_assoc, add_comm (ite _ _ _), ← List.countP_cons] at hrest
    exact hrest

theorem Ok.requirePending : Ok n (s.exec .requirePending) :=
  requireAll _ s h s.pending.entries.nodup_keys fun _ he => (mem_entries_iff _ _ _).1 he

theorem Ok.untargeted
    (hnone : ∀ p e, s.pending.entries.find p = some e → s.pending.targets.find p = none) :
    s.unmet = 0 := by
  rw [h.unmet]
  by_contra hne
  obtain ⟨⟨p, t⟩, hp⟩ := List.exists_mem_of_length_pos (Nat.pos_of_ne_zero hne)
  have hfind := (mem_entries_iff _ _ _).1 hp
  obtain ⟨e, he, -⟩ := (h.slots p).target t hfind
  simp [hnone p e he] at hfind

theorem Ok.exec_pop {m : Pending} (hpop : s.pending.pop = some (e, m)) :
    s.pending.entries.find e.1 = some e.2 ∧ (s.exec .pop).unmet = s.unmet - 1
      ∧ s.exec .pop = { s with
        pending := { s.pending with
          entries := s.pending.entries.erase e.1
          sent := s.pending.sent.insert e.1 e.2.1
          targets := s.pending.targets.erase e.1 }
        unmet := (s.pending.targets.erase e.1).size
        popped := update s.popped e.1 (e.2.1 :: s.popped e.1) } := by
  obtain ⟨he, hfirst, rfl⟩ := Pending.pop_some hpop
  refine ⟨he, ?_⟩
  cases ht : s.pending.targets.find e.1 with
  | some t =>
    obtain ⟨x, hx, hle⟩ := (h.slots e.1).target t ht
    obtain rfl := some.inj (he.symm.trans hx)
    simp [exec, hpop, ht, hle, h.unmet, ← size_erase ht]
  | none =>
    have hzero := h.untargeted fun p x hx => by
      by_contra hp
      have := hfirst p x (isSome_iff_ne_none.2 hp) hx
      simp [contains, ht] at this
    have hsize := h.unmet
    simp [exec, hpop, ht, erase_eq_self _ ht, ← hsize, hzero]

theorem Ok.pop : Ok n (s.exec .pop) := by
  cases hpop : s.pending.pop with
  | none => simpa [exec, hpop] using h
  | some r =>
    obtain ⟨he, -, hexec⟩ := h.exec_pop hpop
    rw [hexec]
    refine h.change h.fragments rfl r.1.1 ?_ fun q hq => ?_
    · simpa [slot] using (h.slots r.1.1).pop he
    · simp [slot, hq, find_insert_ne, find_erase_ne]

theorem Ok.markSent {p version : Nat} (hnew : s.allowed (.markSent p version) = true) :
    Ok n (s.exec (.markSent p version)) := by
  have hok := (h.slots p).markSent (List.isEmpty_iff.1 hnew) (s.pending.find_markSent p version)
  by_cases hp : p < s.pending.fragments
  all_goals
    simp only [exec, Pending.markSent, hp, if_true, if_false] at hok ⊢
    refine h.change h.fragments h.unmet p ?_ fun q hq => ?_
  · simpa [slot] using hok
  · simp [slot, hq, find_insert_ne]
  · simpa [slot] using hok
  · simp [slot, hq]

theorem Ok.step (hop : s.allowed op = true) : Ok n (s.exec op) := by
  cases op with
  | offer p version values => exact h.offer p version values
  | requirePending => exact h.requirePending
  | pop => exact h.pop
  | markSent p version => exact h.markSent hop

omit h in
theorem ok_reachable (h : (runs n).Reachable s) : Ok n s := by
  refine System.guarded_invariant (ok_start n) ?_ h
  intro s s' op hok hop hexec
  obtain rfl := some.inj hexec
  exact hok.step hop

theorem exec_unmet (hop : op ≠ .requirePending) :
    (s.exec op).unmet ≤ s.unmet - [op].count .pop := by
  cases op with
  | offer | markSent => exact le_rfl
  | requirePending => exact absurd rfl hop
  | pop =>
    cases hpop : s.pending.pop with
    | none =>
      have hempty := Pending.pop_none hpop
      have hzero := h.untargeted fun p e he => by simp [hempty p] at he
      simp [exec, hpop, hzero]
    | some r => exact (h.exec_pop hpop).2.1.le

theorem play_unmet {ops : List ResendOp}
    (hplay : System.play allowed (fun s op => some (s.exec op)) s ops = some s')
    (hops : .requirePending ∉ ops) : s'.unmet ≤ s.unmet - ops.count .pop := by
  induction ops generalizing s with
  | nil =>
    obtain rfl := some.inj hplay
    simp
  | cons op ops ih =>
    obtain ⟨hne, hops⟩ := not_or.1 (fun h => hops (List.mem_cons.2 h))
    obtain ⟨hop, hplay⟩ := ite_none_right_eq_some.1 hplay
    have hhead := exec_unmet h (Ne.symm hne)
    have htail := ih (h.step hop) hplay hops
    rw [List.count_cons]
    rw [List.count_singleton] at hhead
    omega

end

/-- The pending map of a forwarder: the count of targets, an entry for each
of them, versions that only grow, what an empty map has handed over, and
that a pop for each target meets them all. -/
theorem targets_met (h : (runs n).Reachable s) : s.unmet = s.pending.targets.size
      ∧ (∀ p t, s.pending.targets.find p = some t →
        ∃ e, s.pending.entries.find p = some e ∧ t ≤ e.1)
      ∧ (∀ p, (s.popped p).Pairwise fun later earlier => later > earlier)
      ∧ (s.pending.entries.size = 0 → ∀ p < n, ∀ v ∈ s.offered p, (∀ v' ∈ s.offered p, v' ≤ v) →
        v ∈ s.popped p ∨ v ∈ s.marked p ∨ ∃ w ∈ s.marked p, v < w) ∧ ∀ ops s',
        System.play allowed (fun s op => some (s.exec op)) s ops = some s' →
        .requirePending ∉ ops → s.unmet ≤ ops.count .pop → s'.unmet = 0 := by
  have hok := ok_reachable h
  refine ⟨hok.unmet, fun p => (hok.slots p).target, fun p => (hok.slots p).increasing, ?_, ?_⟩
  · intro hempty p hp v hv hnewest
    have hslot := hok.slots p
    rcases hslot.offered hp v hv with ⟨e, he, -⟩ | ⟨w, hw, hle⟩
    · have hmem := (mem_entries_iff _ _ _).2 he
      simp [List.eq_nil_of_length_eq_zero hempty] at hmem
    rcases hslot.sent w hw with hpop | hmark
    · obtain rfl := hle.antisymm (hnewest w (hslot.popped w hpop).1)
      exact .inl hpop
    · rcases hle.eq_or_lt with rfl | hlt
      · exact .inr (.inl hmark)
      · exact .inr (.inr ⟨w, hmark, hlt⟩)
  · intro ops s' hplay hops hcount
    have := play_unmet hok hplay hops
    omega

def resends : List ResendOp :=
  [.markSent 0 5, .offer 1 2 [], .offer 0 3 [], .requirePending, .offer 1 4 []]

theorem targets_met_sample : ∃ s, System.play allowed
    (fun s op => some (s.exec op)) (start 2) resends = some s
    ∧ s.unmet = 1 ∧ s.unmet = s.pending.targets.size := by
  obtain ⟨s, hs⟩ : ∃ s, System.play allowed (fun s op => some (s.exec op))
      (start 2) resends = some s := ⟨_, rfl⟩
  refine ⟨s, hs, ?_, (targets_met (System.reachable_play hs)).1⟩
  obtain rfl := some.inj hs
  decide

/-- An offer older than the version marked: the newest offered is neither
popped nor marked itself. -/
theorem older_offer : ∃ s, (runs 1).Reachable s ∧ s.pending.entries.size = 0
    ∧ s.offered 0 = [3] ∧ 3 ∉ s.popped 0 ∧ 3 ∉ s.marked 0 :=
  System.exists_reachable [.markSent 0 5, .offer 0 3 []] (by decide)

end ResendRun

end Yeto.Server
