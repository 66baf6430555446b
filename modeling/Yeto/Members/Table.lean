/-
The member table over whole runs, with every service on it.

A step is what one service does under ONE lock of the table. A subscriber and
a relay producer are checked and joined under the same lock (`hello`). The
dispenser gives the lock up in between: `open_with` looks for its island among
the retired (`check`) and joins it later (`join`), and `Members::join` itself
checks nothing (`retired_member_joins`). In the runs in which no member is
retired between the two the table is kept (`table_kept`).

The record is the LAST `RETIRED_LIMIT` of the history of retirements, across
restarts as well; a restart retires every member that was live.
-/
import Yeto.Members
import Yeto.Lib.System

namespace Yeto.Members

open Lib SortedMap Option

/-- The services that share the table. -/
inductive Channel
  | dispense
  | subscriber
  | relay

/-- What a refusal of the service begins with. -/
def Channel.fenced : Channel → String
  | .dispense => "fenced: dispense"
  | .subscriber => "fenced: subscriber"
  | .relay => "fenced: relay"

/-- What a caller does before `join`: a retired member is refused. -/
def check (m : Members) (c : Channel) (h : Holder) : Except String Unit :=
  if m.isRetired h then .error s!"{c.fenced} {m.fencedText h}" else .ok ()

/-- The HELLO of a subscriber or a relay producer: the sweep, the check and
the join, under one lock. -/
def hello (m : Members) (c : Channel) (h : Holder) (now : Nat) :
    Except String Join × Members :=
  let m := (m.expire now).2
  match m.check c h with
  | .error text => (.error text, m)
  | .ok () => (.ok (m.join h now).1, (m.join h now).2)

/-- What is done under one lock. -/
inductive Op
  /-- `open_with` of the dispenser, the first lock. -/
  | check (h : Holder)
  /-- `open_with` of the dispenser, the second lock: `Members::join`. -/
  | join (h : Holder) (now : Nat)
  | hello (c : Channel) (h : Holder) (now : Nat)
  | touch (h : Holder) (now : Nat)
  | retire (h : Holder) (reason : Retired)
  | expire (now : Nat)
  /-- A fresh table, with the fence list of this one restored into it. -/
  | restart

/-- The table after a step. -/
def exec (m : Members) : Op → Members
  | .check _ => m
  | .join h now => (m.join h now).2
  | .hello c h now => (m.hello c h now).2
  | .touch h now => (m.touch h now).2
  | .retire h reason => m.retire h reason
  | .expire now => (m.expire now).2
  | .restart => (new m.lease).retireAll m.fenceList .restart

/-- The member that a join retires. -/
def superseded (m : Members) (h : Holder) : List Holder :=
  if m.isLive h then [] else (m.currentOf h.learnerId).toList

/-- The members a step retires, in order. One on the record is not retired
again. -/
def retiredBy (m : Members) : Op → List Holder
  | .check _ | .touch _ _ => []
  | .join h _ => m.superseded h
  | .hello _ h now =>
    let swept := (m.expire now).2
    m.expired now ++ if swept.isRetired h then [] else swept.superseded h
  | .retire h _ => if m.isRetired h then [] else [h]
  | .expire now => m.expired now
  | .restart => m.lastSeen.keys.filter fun h => !m.retiredSet.contains h

/-- Only current members have a lease. -/
def Held (m : Members) : Prop :=
  ∀ h, m.isLive h = true → m.current.find h.learnerId = some h.incarnation

variable {m : Members}

theorem Held.retire (hm : m.Held) (x : Holder) (r : Retired) : (m.retire x r).Held := by
  intro h hlive
  obtain ⟨hne, hlive⟩ := contains_lastSeen_retire.1 hlive
  have hcur := hm h hlive
  rw [retire_current]
  split
  · next hx =>
    rw [find_erase_ne _ fun hid => ?_]
    · exact hcur
    -- one id has one current incarnation
    refine hne ?_
    cases h
    cases x
    cases hid
    cases hcur.symm.trans hx
    rfl
  · exact hcur

theorem Held.retireAll (hm : m.Held) (hs : List Holder) (r : Retired) :
    (m.retireAll hs r).Held := by
  induction hs generalizing m with
  | nil => exact hm
  | cons h hs ih => exact ih (hm.retire h r)

theorem Held.touch (hm : m.Held) (x : Holder) (now : Nat) : (m.touch x now).2.Held := by
  intro h hlive
  rw [isLive_touch] at hlive
  unfold Members.touch
  split <;> exact hm h hlive

theorem Held.join (hm : m.Held) (x : Holder) (now : Nat) : (m.join x now).2.Held := by
  unfold Members.join
  split
  · next hx =>
    intro h hlive
    rcases contains_insert.1 hlive with rfl | hlive
    · exact hm h hx
    · exact hm h hlive
  -- after the current incarnation of the id was retired, nobody has the id
  have key : ∀ m' : Members, m'.Held → m'.current.find x.learnerId = none → Held { m' with
      current := m'.current.insert x.learnerId x.incarnation
      lastSeen := m'.lastSeen.insert x now } := by
    intro m' hm' hnone h hlive
    show (m'.current.insert x.learnerId x.incarnation).find h.learnerId = _
    rcases contains_insert.1 hlive with rfl | hlive
    · exact find_insert_self ..
    · have hcur := hm' h hlive
      rw [find_insert_ne _ _ fun hid => ?_]
      · exact hcur
      rw [hid, hnone] at hcur
      cases hcur
  cases hcur : m.currentOf x.learnerId with
  | none => exact key m hm (map_eq_none_iff.1 hcur)
  | some old =>
    obtain ⟨inc, hinc, rfl⟩ := map_eq_some_iff.1 hcur
    refine key _ (hm.retire _ _) ?_
    rw [retire_current, if_pos hinc]
    exact find_erase_self ..

theorem Ok.current_fresh (hm : m.Ok) {id : U32} {old : Holder} (h : m.currentOf id = some old) :
    m.retiredSet.contains old = false := by
  obtain ⟨inc, hinc, rfl⟩ := map_eq_some_iff.1 h
  exact hm.fresh _ (hm.leased _ hinc)

/-- A HELLO is a sweep, and a join if the member is not retired by then. -/
theorem exec_hello (m : Members) (c : Channel) (h : Holder) (now : Nat) :
    m.exec (.hello c h now) = if (m.expire now).2.isRetired h then (m.expire now).2
      else ((m.expire now).2.join h now).2 := by
  unfold exec hello check
  by_cases hr : (m.expire now).2.isRetired h = true
  · simp only [if_pos hr]
  · simp only [if_neg hr]

section Record

variable (hm : m.Ok)
include hm

/-- The record when nothing is retired. -/
theorem Ok.order_same :
    m.retiredOrder = (m.retiredOrder ++ []).rtake retiredLimit := by
  rw [List.append_nil, rtake_of_length_le hm.bound]

/-- A sweep puts the members whose lease ran out on the record. -/
theorem order_expire (now : Nat) : (m.expire now).2.retiredOrder
    = (m.retiredOrder ++ m.expired now).rtake retiredLimit := by
  refine retired_retireAll hm .expired ((sorted_expired m now).imp fun h => h.ne) ?_
  intro h hh
  obtain ⟨t, ht, -⟩ := mem_expired.1 hh
  exact hm.fresh h ((contains_iff _ _).2 ⟨t, ht⟩)

/-- A join puts the incarnation it supersedes on the record. -/
theorem order_join (h : Holder) (now : Nat) : (m.join h now).2.retiredOrder
    = (m.retiredOrder ++ m.superseded h).rtake retiredLimit := by
  unfold join superseded isLive
  by_cases hlive : m.lastSeen.contains h = true
  · rw [if_pos hlive, if_pos hlive]
    exact hm.order_same
  · rw [if_neg hlive, if_neg hlive]
    cases hcur : m.currentOf h.learnerId with
    | none => exact hm.order_same
    | some old => exact (retire_new hm .superseded (hm.current_fresh hcur)).1

/-- Every step puts on the record what it retires. -/
theorem order_exec (op : Op) : (m.exec op).retiredOrder
    = (m.retiredOrder ++ m.retiredBy op).rtake retiredLimit := by
  cases op with
  | check h => exact hm.order_same
  | join h now => exact order_join hm h now
  | hello c h now =>
    have hswept := ok_expire hm now
    rw [exec_hello]
    unfold retiredBy
    dsimp only
    rw [← List.append_assoc, ← rtake_rtake_append, ← order_expire hm]
    split
    · exact hswept.order_same
    · exact order_join hswept h now
  | touch h now =>
    unfold exec touch
    dsimp only
    split <;> exact hm.order_same
  | retire h reason =>
    unfold exec retiredBy
    dsimp only
    split
    · next hr => exact (retire_of_retired reason hr).1.trans hm.order_same
    · next hr => exact (retire_new hm reason (Bool.eq_false_iff.2 hr)).1
  | expire now => exact order_expire hm now
  | restart =>
    exact (fenceList_retireAll m.lease (nodup_fenceList hm) (length_rtake_le _ _)).1

end Record

/-- A table, the members whose check in `open_with` passed and who are not
joined yet, and everyone ever retired, oldest first. -/
structure Table where
  members : Members
  opening : List Holder
  history : List Holder

/-- The islands that are between their check and their join after a step;
`none` where the step is not the next one of any service. -/
def Table.opens (t : Table) : Op → Option (List Holder)
  | .check h =>
    some (if t.members.isRetired h then t.opening else h :: t.opening)
  | .join h _ => if h ∈ t.opening then some (t.opening.erase h) else none
  -- An island is opened in two steps.
  | .hello .dispense _ _ => none
  | .restart => some []
  | _ => some t.opening

/-- One step of a run. -/
def Table.exec (t : Table) (op : Op) : Option Table :=
  (t.opens op).map fun opening =>
    ⟨t.members.exec op, opening, t.history ++ t.members.retiredBy op⟩

/-- The island that joins was not retired since its check. -/
def Table.undisturbed (t : Table) : Op → Bool
  | .join h _ => !t.members.isRetired h
  | _ => true

def Table.new (lease : Nat) : Table := ⟨Members.new lease, [], []⟩

/-- All runs. -/
def tables (lease : Nat) : System Table :=
  System.guarded (.new lease) (fun _ _ => true) Table.exec

/-- The runs in which the check and the join of `open_with` are as good as
one step. -/
def undisturbedTables (lease : Nat) : System Table :=
  System.guarded (.new lease) Table.undisturbed Table.exec

variable {lease : Nat} {t t' : Table} {op : Op}

theorem ok_exec (hm : t.members.Ok) (hop : t.undisturbed op = true) :
    (t.members.exec op).Ok := by
  cases op with
  | check h => exact hm
  | join h now =>
    have hr : t.members.isRetired h = false := by simpa [Table.undisturbed] using hop
    exact ok_join hm now hr
  | hello c h now =>
    rw [exec_hello]
    split
    · exact ok_expire hm now
    · next hr => exact ok_join (ok_expire hm now) now (Bool.eq_false_iff.2 hr)
  | touch h now => exact ok_touch hm h now
  | retire h reason => exact ok_retire hm h reason
  | expire now => exact ok_expire hm now
  | restart => exact ok_retireAll (ok_new _) _ _

theorem Held.exec (hm : m.Held) (op : Op) : (m.exec op).Held := by
  cases op with
  | check h => exact hm
  | join h now => exact hm.join h now
  | hello c h now =>
    have hswept : (m.expire now).2.Held := hm.retireAll _ _
    rw [exec_hello]
    split
    · exact hswept
    · exact hswept.join h now
  | touch h now => exact hm.touch h now
  | retire h reason => exact hm.retire h reason
  | expire now => exact hm.retireAll _ _
  | restart =>
    have hnew : (new m.lease).Held := nofun
    exact hnew.retireAll _ _

/-- What every step keeps. -/
structure TableInv (t : Table) : Prop where
  ok : t.members.Ok
  held : t.members.Held
  order : t.members.retiredOrder = t.history.rtake retiredLimit

theorem TableInv.exec (h : TableInv t) (hop : t.undisturbed op = true)
    (hexec : t.exec op = some t') : TableInv t' := by
  obtain ⟨opening, -, rfl⟩ := map_eq_some_iff.1 hexec
  refine ⟨ok_exec h.ok hop, h.held.exec op, (order_exec h.ok op).trans ?_⟩
  rw [h.order, rtake_rtake_append]

theorem tableInv_reachable (ht : (undisturbedTables lease).Reachable t) : TableInv t := by
  refine System.guarded_invariant ?_ (fun _ _ _ h hop hexec => h.exec hop hexec) ht
  exact ⟨ok_new lease, nofun, (rtake_of_length_le (Nat.zero_le _)).symm⟩

/-- A member that fewer than `RETIRED_LIMIT` others followed is on the
record. -/
theorem TableInv.isRetired (hinv : TableInv t) {pre post : List Holder} {h : Holder}
    (hhist : t.history = pre ++ h :: post) (hlen : post.length < 4096) :
    t.members.isRetired h = true := by
  rw [hinv.ok.isRetired_iff, hinv.order, hhist]
  exact mem_rtake_append_cons post h hlen

/-- What the table guarantees the services that share it. -/
structure TableKept (t : Table) : Prop where
  /-- At most one incarnation of an id is current. -/
  one : ∀ h h', t.members.isLive h = true → t.members.isLive h' = true →
    h.learnerId = h'.learnerId → h = h'
  /-- The current members are those with a last-seen time. -/
  leased : ∀ h, t.members.currentOf h.learnerId = some h ↔ t.members.isLive h = true
  /-- The record and the set of the retired. -/
  same : ∀ h, t.members.isRetired h = true ↔ h ∈ t.members.retiredOrder
  nodup : t.members.retiredOrder.Nodup
  bound : t.members.retiredOrder.length ≤ 4096
  apart : ∀ h, ¬ (t.members.isLive h = true ∧ t.members.isRetired h = true)
  /-- A retired member is refused until 4096 others followed: its requests,
  and the check of the dispenser. -/
  refused : ∀ pre h post, t.history = pre ++ h :: post → post.length < 4096 →
    (∀ now, (t.members.touch h now).1 = false)
      ∧ ∀ c, t.members.check c h = .error s!"{c.fenced} {t.members.fencedText h}"
  /-- A HELLO sweeps first, and those it retires followed as well. -/
  greeted : ∀ pre h post now, t.history = pre ++ h :: post →
    (post ++ t.members.expired now).length < 4096 → ∀ c, t.members.hello c h now
      = (.error s!"{c.fenced} {(t.members.expire now).2.fencedText h}",
        (t.members.expire now).2)
  /-- A sweep retires those whose lease has run out, and no one else. -/
  expired : ∀ now h, (h ∈ (t.members.expire now).1 ↔
      ∃ seen, t.members.lastSeen.find h = some seen ∧ now - seen ≥ t.members.lease)
    ∧ ((t.members.expire now).2.isLive h = true ↔
      t.members.isLive h = true ∧ h ∉ (t.members.expire now).1)
    ∧ (t.exec (.expire now)).map Table.history
      = some (t.history ++ (t.members.expire now).1)

/-- THE TABLE IS KEPT, through every history of checks, joins, renewals,
retirements, sweeps and restarts in which no island is retired between its
check and its join. -/
theorem table_kept (ht : (undisturbedTables lease).Reachable t) : TableKept t := by
  have hinv := tableInv_reachable ht
  have hok := hinv.ok
  have hheld := hinv.held
  have hleased : ∀ h, t.members.currentOf h.learnerId = some h ↔ t.members.isLive h = true := by
    intro h
    constructor
    · intro hcur
      obtain ⟨inc, hinc, heq⟩ := map_eq_some_iff.1 hcur
      exact hok.leased h (by rw [hinc, ← heq])
    · intro hlive
      exact map_eq_some_iff.2 ⟨_, hheld h hlive, rfl⟩
  have hapart : ∀ h, ¬ (t.members.isLive h = true ∧ t.members.isRetired h = true) := by
    rintro h ⟨hlive, hret⟩
    rw [isRetired, hok.fresh h hlive] at hret
    cases hret
  refine ⟨?_, hleased, hok.same, hok.nodup, hok.bound, hapart, ?_, ?_, ?_⟩
  · intro h h' hlive hlive' hid
    have hcur := (hleased h).2 hlive
    rw [hid, (hleased h').2 hlive'] at hcur
    exact (some.inj hcur).symm
  · intro pre h post hhist hlen
    have hret := hinv.isRetired hhist hlen
    refine ⟨fun now => ?_, fun c => if_pos hret⟩
    unfold Members.touch
    split
    · next hlive => exact absurd ⟨hlive, hret⟩ (hapart h)
    · rfl
  · intro pre h post now hhist hlen c
    -- the sweep is a step of its own, after which the member is on the record
    have hswept : TableInv ⟨(t.members.expire now).2, t.opening,
        t.history ++ t.members.expired now⟩ := hinv.exec
      (show t.undisturbed (.expire now) = true from rfl) rfl
    have hret := hswept.isRetired (by rw [hhist, List.append_assoc]; rfl) hlen
    unfold hello check
    simp only [if_pos hret]
  · exact fun now h => ⟨mem_expired, contains_lastSeen_retireAll.trans and_comm, rfl⟩

/-- The dispenser checks island 7, which joins on the relay in the meantime
and again with a new incarnation, and the syncer restarts. -/
theorem table_kept_sample : ∃ t, (undisturbedTables 10).Reachable t
    ∧ t.history = [⟨7, 1⟩, ⟨7, 2⟩] ∧ TableKept t := by
  obtain ⟨t, hreach, hhist⟩ : ∃ t, (undisturbedTables 10).Reachable t
      ∧ t.history = [⟨7, 1⟩, ⟨7, 2⟩] := System.exists_reachable
    [.check ⟨7, 1⟩, .join ⟨7, 1⟩ 0, .hello .relay ⟨7, 2⟩ 3, .restart] (by decide +kernel)
  exact ⟨t, hreach, hhist, table_kept hreach⟩

/-- A RETIRED MEMBER JOINS: the dispenser has checked the island when the
relay admits a new incarnation of it. The old one is then current and
retired, its requests are served, and the new one is retired. -/
theorem retired_member_joins : ∃ t, (tables 10).Reachable t
    ∧ t.members.currentOf 7 = some ⟨7, 1⟩ ∧ t.members.isRetired ⟨7, 1⟩ = true
    ∧ (t.members.touch ⟨7, 1⟩ 3).1 = true ∧ t.members.isRetired ⟨7, 2⟩ = true :=
  System.exists_reachable [.hello .relay ⟨7, 1⟩ 0, .check ⟨7, 1⟩, .hello .relay ⟨7, 2⟩ 1,
    .join ⟨7, 1⟩ 0] (by decide +kernel)

end Yeto.Members
