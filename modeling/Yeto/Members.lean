/-
The member table of one syncer process (`syncer/src/members.rs`): who is live,
which incarnation of an island is current, and which are retired (fenced). The
task dispenser, the spot rollout subscribers and the sample relay share it.

An id is a `U32`, an incarnation a `U64` (`Fin`). Clock readings and leases are
nanoseconds in `Nat`; `saturating_duration_since` is truncated subtraction. The
`BTreeMap` of leases is iterated in the lexicographic order of `Holder`.

`retire` appends to a record of at most `RETIRED_LIMIT` incarnations and evicts
from its front (`retired_retireAll`). A service that learns of a retirement by
asking `is_retired` can therefore miss one.
-/
import Yeto.Lib.Fence
import Mathlib.Data.Prod.Lex
import Mathlib.Order.Fin.Basic
import Mathlib.Algebra.GroupWithZero.Nat

namespace Yeto

open Lib SortedMap

abbrev U32 := Fin 4294967296

abbrev U64 := Fin 18446744073709551616

instance neZeroU32 : NeZero 4294967296 := ⟨by decide⟩
instance neZeroU64 : NeZero 18446744073709551616 := ⟨by decide⟩

structure Holder where
  learnerId : U32
  incarnation : U64
deriving Repr

/-- The derived order of the source: by id, then by incarnation. -/
instance : LinearOrder Holder := LinearOrder.lift' (fun h => toLex (h.learnerId, h.incarnation))
    (fun a b h => by
      cases a
      cases b
      simpa using h)

theorem Holder.lt_of_id_lt {a b : Holder} (h : a.learnerId.val < b.learnerId.val) : a < b := by
  show toLex (a.learnerId, a.incarnation) < toLex (b.learnerId, b.incarnation)
  exact Prod.Lex.toLex_lt_toLex.2 (.inl h)

/-- Why a member was retired (the `fenced:` answers name it). -/
inductive Retired
  /-- A new incarnation of the same id joined on some channel. -/
  | superseded
  | expired
  | restart
deriving DecidableEq, Repr

def Retired.name : Retired → String
  | .superseded => "superseded"
  | .expired => "lease expired"
  | .restart => "from before a syncer restart"

def retiredLimit : Nat := 4096

inductive Join
  | joined (superseded : Option Holder)
  | reconnected
deriving DecidableEq, Repr

structure Members where
  lease : Nat
  lastSeen : SortedMap Holder Nat
  current : SortedMap U32 U64
  retiredOrder : List Holder
  retiredSet : SortedMap Holder Retired
  retirements : Nat

def hex016 (n : Nat) : String :=
  let digits := (Nat.toDigits 16 n)
  String.ofList (List.replicate (16 - digits.length) '0' ++ digits)

namespace Members

def new (lease : Nat) : Members where
  lease := lease
  lastSeen := .empty
  current := .empty
  retiredOrder := []
  retiredSet := .empty
  retirements := 0

def isLive (m : Members) (h : Holder) : Bool := m.lastSeen.contains h

def isRetired (m : Members) (h : Holder) : Bool := m.retiredSet.contains h

def retiredReason (m : Members) (h : Holder) : Option Retired := m.retiredSet.find h

def fencedText (m : Members) (h : Holder) : String :=
  let inc := hex016 h.incarnation.val
  let id := h.learnerId.val
  let why := ((m.retiredReason h).map Retired.name).getD "retired"
  s!"incarnation {inc} of member {id} is retired ({why})"

def currentOf (m : Members) (id : U32) : Option Holder :=
  (m.current.find id).map fun inc => ⟨id, inc⟩

/-- Retire `h`. A holder retired twice keeps its first reason. -/
def retire (m : Members) (h : Holder) (reason : Retired) : Members :=
  let lastSeen := m.lastSeen.erase h
  let current := if m.current.find h.learnerId = some h.incarnation
    then m.current.erase h.learnerId else m.current
  if m.retiredSet.contains h then
    { m with lastSeen := lastSeen, current := current }
  else
    let kept := evict retiredLimit (m.retiredOrder ++ [h]) (m.retiredSet.insert h reason)
    { m with
      lastSeen := lastSeen
      current := current
      retiredOrder := kept.1
      retiredSet := kept.2
      retirements := m.retirements + 1 }

/-- Admit `h` (the caller checked `isRetired` first). A new incarnation
retires the id's current one. -/
def join (m : Members) (h : Holder) (now : Nat) : Join × Members :=
  if m.lastSeen.contains h then
    (.reconnected, { m with lastSeen := m.lastSeen.insert h now })
  else
    let superseded := m.currentOf h.learnerId
    let m := match superseded with
      | some old => m.retire old .superseded
      | none => m
    (.joined superseded, { m with
        current := m.current.insert h.learnerId h.incarnation
        lastSeen := m.lastSeen.insert h now })

def touch (m : Members) (h : Holder) (now : Nat) : Bool × Members :=
  if m.lastSeen.contains h then
    (true, { m with lastSeen := m.lastSeen.insert h now })
  else (false, m)

def expired (m : Members) (now : Nat) : List Holder :=
  (m.lastSeen.entries.filter fun e => decide (now - e.2 ≥ m.lease)).map Prod.fst

def retireAll (m : Members) (hs : List Holder) (reason : Retired) : Members :=
  hs.foldl (fun m h => m.retire h reason) m

def expire (m : Members) (now : Nat) : List Holder × Members :=
  let gone := m.expired now
  (gone, m.retireAll gone .expired)

/-- The retired incarnations (oldest first), then the live ones: what a
restart must fence. -/
def fenceList (m : Members) : List Holder :=
  let out := m.retiredOrder ++ m.lastSeen.keys.filter fun h => !m.retiredSet.contains h
  out.drop (out.length - retiredLimit)

open List

/-- The table's standing facts: the record and the set hold the same
incarnations without repetition and within the limit, no live member is
on the record, and a current incarnation is live. -/
structure Ok (m : Members) : Prop where
  nodup : m.retiredOrder.Nodup
  same : ∀ h, m.retiredSet.contains h = true ↔ h ∈ m.retiredOrder
  bound : m.retiredOrder.length ≤ retiredLimit
  fresh : ∀ h, m.lastSeen.contains h = true → m.retiredSet.contains h = false
  leased : ∀ h, m.current.find h.learnerId = some h.incarnation → m.lastSeen.contains h = true

theorem ok_new (lease : Nat) : (new lease).Ok := by
  refine ⟨nodup_nil, ?_, ?_, ?_, ?_⟩
  · intro h
    show false = true ↔ h ∈ []
    simp
  · show 0 ≤ retiredLimit
    omega
  · intro h hc
    cases hc
  · intro h hc
    cases hc

@[simp] theorem retire_lease (m : Members) (h : Holder) (r : Retired) :
    (m.retire h r).lease = m.lease := by
  dsimp only [retire]
  split <;> rfl

@[simp] theorem retire_lastSeen (m : Members) (h : Holder) (r : Retired) :
    (m.retire h r).lastSeen = m.lastSeen.erase h := by
  dsimp only [retire]
  split <;> rfl

theorem retire_current (m : Members) (h : Holder) (r : Retired) :
    (m.retire h r).current = if m.current.find h.learnerId = some h.incarnation
        then m.current.erase h.learnerId else m.current := by
  dsimp only [retire]
  split <;> rfl

variable {m : Members} {x : Holder} {r : Retired}

theorem contains_lastSeen_retire {h : Holder} :
    (m.retire h r).lastSeen.contains x = true ↔ x ≠ h ∧ m.lastSeen.contains x = true := by
  rw [retire_lastSeen, contains_erase]

theorem leased_retire (hm : m.Ok) {h : Holder} (x : Holder)
    (hx : (m.retire h r).current.find x.learnerId = some x.incarnation) :
    (m.retire h r).lastSeen.contains x = true := by
  rw [contains_lastSeen_retire]
  rw [retire_current] at hx
  split at hx
  · next hc =>
    obtain ⟨hne, hx⟩ := find_erase_cases hx
    exact ⟨fun he => hne (by rw [he]), hm.leased x hx⟩
  · next hc => exact ⟨fun he => hc (he ▸ hx), hm.leased x hx⟩

variable {h : Holder}

theorem retire_of_retired (r : Retired) (hr : m.retiredSet.contains h = true) :
    (m.retire h r).retiredOrder = m.retiredOrder ∧ (m.retire h r).retiredSet = m.retiredSet := by
  unfold retire
  rw [if_pos hr]
  exact ⟨rfl, rfl⟩

theorem isLive_touch (m : Members) (holder : Holder) (now : Nat) (h : Holder) :
    (m.touch holder now).2.isLive h = m.isLive h := by
  unfold Members.touch
  split
  · next hc =>
    unfold Members.isLive
    rw [Bool.eq_iff_iff, SortedMap.contains_insert]
    refine ⟨?_, .inr⟩
    rintro (rfl | hh)
    · exact hc
    · exact hh
  · rfl

section

variable (hm : m.Ok)
include hm

/-- A first retirement appends to the record and keeps its last
`retiredLimit` entries; the set follows. -/
theorem retire_new (r : Retired) (hr : m.retiredSet.contains h = false) :
    (m.retire h r).retiredOrder = (m.retiredOrder ++ [h]).rtake retiredLimit
      ∧ Recorded ((m.retiredOrder ++ [h]).rtake retiredLimit) (m.retire h r).retiredSet := by
  dsimp only [retire]
  rw [if_neg (by simp [hr])]
  exact evict_spec retiredLimit (Recorded.push ⟨hm.nodup, hm.same⟩ hr r)

theorem isRetired_retire (hx : (m.retire h r).isRetired x = true) :
    x = h ∨ m.isRetired x = true := by
  unfold isRetired at hx ⊢
  cases hr : m.retiredSet.contains h with
  | true =>
    rw [(retire_of_retired r hr).2] at hx
    exact .inr hx
  | false =>
    rw [(retire_new hm r hr).2.2] at hx
    rcases mem_append.1 (mem_of_mem_drop hx) with hin | hin
    · exact .inr ((hm.same x).2 hin)
    · exact .inl (mem_singleton.1 hin)

theorem ok_retire (h : Holder) (r : Retired) : (m.retire h r).Ok := by
  have hfresh : ∀ x, (m.retire h r).lastSeen.contains x = true →
      (m.retire h r).retiredSet.contains x = false := by
    intro x hx
    obtain ⟨hne, hx⟩ := contains_lastSeen_retire.1 hx
    refine Bool.eq_false_iff.2 fun hc => ?_
    exact (isRetired_retire hm hc).elim hne (Bool.eq_false_iff.1 (hm.fresh x hx))
  cases hr : m.retiredSet.contains h with
  | true =>
    obtain ⟨ho, hs⟩ := retire_of_retired r hr
    refine ⟨ho ▸ hm.nodup, fun x => ?_, ho ▸ hm.bound, hfresh, leased_retire hm⟩
    rw [hs, ho]
    exact hm.same x
  | false =>
    obtain ⟨ho, hrec⟩ := retire_new hm r hr
    rw [← ho] at hrec
    refine ⟨hrec.1, hrec.2, ?_, hfresh, leased_retire hm⟩
    rw [ho]
    exact length_rtake_le _ _

theorem ok_seen (now : Nat) (hr : m.isRetired h = false) :
    Ok { m with lastSeen := m.lastSeen.insert h now } := by
  refine { hm with
    fresh := fun x hx => ?_
    leased := fun x hx =>
      SortedMap.contains_insert.2 (.inr (hm.leased x hx)) }
  obtain rfl | hx := SortedMap.contains_insert.1 hx
  · exact hr
  · exact hm.fresh x hx

theorem ok_touch (h : Holder) (now : Nat) : (m.touch h now).2.Ok := by
  unfold touch
  split
  · next hc => exact ok_seen hm now (hm.fresh h hc)
  · exact hm

theorem ok_join (now : Nat) (hr : m.isRetired h = false) : (m.join h now).2.Ok := by
  unfold join
  split
  · next hc => exact ok_seen hm now hr
  next hc =>
  -- the table after the current incarnation was retired
  have key : ∀ m' : Members, m'.Ok → m'.isRetired h = false → Ok { m' with
        current := m'.current.insert h.learnerId h.incarnation
        lastSeen := m'.lastSeen.insert h now } := by
    intro m' hm' hr'
    have hs := ok_seen hm' now hr'
    refine { hs with leased := ?_ }
    intro x hx
    obtain ⟨hid, hinc⟩ | ⟨-, hx⟩ := find_insert_cases hx
    · have hxh : x = h := by
        cases x
        cases hid
        cases hinc
        rfl
      exact SortedMap.contains_insert.2 (.inl hxh)
    · exact hs.leased x hx
  cases hcur : m.currentOf h.learnerId with
  | none => exact key m hm hr
  | some old =>
    refine key _ (ok_retire hm old .superseded) ?_
    rw [Bool.eq_false_iff]
    intro hret
    rcases isRetired_retire hm hret with hold | hold
    · -- the current incarnation holds a lease, the joining one does not
      obtain ⟨inc, hf, rfl⟩ := Option.map_eq_some_iff.1 hcur
      exact hc (hm.leased h (by rw [hf, hold]))
    · rw [hr] at hold
      cases hold

theorem ok_retireAll (hs : List Holder) (r : Retired) : (m.retireAll hs r).Ok := by
  induction hs generalizing m with
  | nil => exact hm
  | cons h hs ih => exact ih (ok_retire hm h r)

theorem ok_expire (now : Nat) : (m.expire now).2.Ok := ok_retireAll hm _ _

end

theorem mem_expired {now : Nat} {k : Holder} :
    k ∈ m.expired now ↔ ∃ t, m.lastSeen.find k = some t ∧ now - t ≥ m.lease := by
  unfold Members.expired
  simp [mem_entries_iff]

theorem sorted_expired (m : Members) (now : Nat) : (m.expired now).Pairwise (· < ·) :=
  pairwise_map.2 (m.lastSeen.sorted.filter _)

theorem find_lastSeen_retireAll (m : Members) (hs : List Holder) (r : Retired)
    (x : Holder) : (m.retireAll hs r).lastSeen.find x
      = if x ∈ hs then none else m.lastSeen.find x := by
  induction hs generalizing m with
  | nil => rfl
  | cons h hs ih =>
    refine (ih (m.retire h r)).trans ?_
    rw [retire_lastSeen, find_erase]
    by_cases hx : x = h
    · simp only [hx, mem_cons, true_or, if_true, ite_self]
    · simp only [mem_cons, hx, false_or, if_false]

theorem lease_retireAll (m : Members) (hs : List Holder) (r : Retired) :
    (m.retireAll hs r).lease = m.lease := by
  induction hs generalizing m with
  | nil => rfl
  | cons h hs ih => exact (ih (m.retire h r)).trans (retire_lease m h r)

variable {hs : List Holder}

theorem contains_lastSeen_retireAll :
    (m.retireAll hs r).lastSeen.contains x = true ↔ x ∉ hs ∧ m.lastSeen.contains x = true := by
  unfold SortedMap.contains
  rw [find_lastSeen_retireAll]
  by_cases hx : x ∈ hs <;> simp [hx]

theorem retired_retireAll (hm : m.Ok)
    (r : Retired) (hnd : hs.Nodup) (hnew : ∀ h ∈ hs, m.isRetired h = false) :
    (m.retireAll hs r).retiredOrder = (m.retiredOrder ++ hs).rtake retiredLimit := by
  induction hs generalizing m with
  | nil =>
    rw [append_nil, rtake_of_length_le hm.bound]
    rfl
  | cons h hs ih =>
    obtain ⟨hnot, hnd⟩ := nodup_cons.1 hnd
    have hrest : ∀ x ∈ hs, (m.retire h r).isRetired x = false := by
      intro x hx
      rw [Bool.eq_false_iff]
      intro hret
      rcases isRetired_retire hm hret with rfl | hold
      · exact hnot hx
      · rw [hnew x (mem_cons_of_mem _ hx)] at hold
        cases hold
    refine (ih (ok_retire hm h r) hnd hrest).trans ?_
    rw [(retire_new hm r (hnew h mem_cons_self)).1, rtake_rtake_append, append_assoc]
    rfl

theorem Ok.isRetired_iff (hm : m.Ok) : m.isRetired x = true ↔ x ∈ m.retiredOrder := hm.same x

theorem fenceList_eq : m.fenceList = (m.retiredOrder ++ m.lastSeen.keys.filter
        fun h => !m.retiredSet.contains h).rtake retiredLimit := rfl

theorem nodup_fenceList (hm : m.Ok) : m.fenceList.Nodup := by
  refine List.Nodup.sublist (drop_sublist _ _) ?_
  refine nodup_append.2 ⟨hm.nodup, m.lastSeen.nodup_keys.filter _, ?_⟩
  intro a ha b hb hab
  subst hab
  have hno := (mem_filter.1 hb).2
  rw [(hm.same a).2 ha] at hno
  cases hno

theorem mem_fenceList (hm : m.Ok) (hsize : m.retiredOrder.length + m.lastSeen.size ≤ retiredLimit)
    (hh : m.isLive h = true ∨ m.isRetired h = true) : h ∈ m.fenceList := by
  have hall : m.fenceList = m.retiredOrder ++ m.lastSeen.keys.filter
      fun h => !m.retiredSet.contains h := by
    have hlen := length_filter_le (fun h => !m.retiredSet.contains h) m.lastSeen.keys
    have hkeys : m.lastSeen.keys.length = m.lastSeen.size := length_map _
    refine rtake_of_length_le ?_
    rw [length_append]
    omega
  rw [hall, mem_append]
  rcases hh with hlive | hret
  · refine .inr (mem_filter.2 ⟨(m.lastSeen.mem_keys_iff h).2 ((m.lastSeen.contains_iff h).1 hlive),
        ?_⟩)
    rw [hm.fresh h hlive]
    rfl
  · exact .inl ((hm.same h).1 hret)

theorem fenceList_retireAll (lease : Nat) (hnd : hs.Nodup)
    (hlen : hs.length ≤ retiredLimit) : ((new lease).retireAll hs .restart).retiredOrder = hs
      ∧ ((new lease).retireAll hs .restart).fenceList = hs := by
  have horder : ((new lease).retireAll hs .restart).retiredOrder = hs := by
    rw [retired_retireAll (ok_new lease) .restart hnd fun _ _ => rfl]
    exact rtake_of_length_le hlen
  have hseen : ((new lease).retireAll hs .restart).lastSeen = .empty := by
    refine ext_find fun x => ?_
    rw [find_lastSeen_retireAll]
    exact ite_self _
  refine ⟨horder, ?_⟩
  rw [fenceList_eq, horder, hseen]
  show (hs ++ []).rtake retiredLimit = hs
  rw [append_nil, rtake_of_length_le hlen]

end Members

end Yeto
