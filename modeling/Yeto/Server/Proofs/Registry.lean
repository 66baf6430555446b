/-
The registry keeps one generation per island on its roster. Everything on the
roster is LIVE in the membership, and a live generation is the last one
admitted for its id (`RegistryOk`), so an event of an older generation finds
another member under its id. `Kept` says what the operations do to a generation
they are not about.
-/
import Yeto.Server.Registry
import Yeto.Membership.Proofs.Fencing

namespace Yeto.Server

open Lib RegistryState SortedMap Option Function Yeto.Membership List

variable {group : Group} {ext : HelloExt} {x y : Member} {now : Nat} {r r' : RegistryState}
  {id : U32}

inductive RegistryOp
  | register (group : Group) (now : Nat) (ext : HelloExt)
  | unregister (member : Member)
  | disconnectHandled (member : Member)
  | promoteRecovered (member : Member)
  | expireLeases (now : Nat)
  | renew (member : Member) (now : Nat)
  | recordCatchUp (member : Member) (versions : List Nat)

def RegistryState.apply (r : RegistryState) : RegistryOp → RegistryState
  | .register group now ext => (r.registerGroupWith group now ext).2
  | .unregister member => r.unregister member
  | .disconnectHandled member => r.disconnectHandled member
  | .promoteRecovered member => (r.promoteRecovered member).2
  | .expireLeases now => (r.expireLeases now).2
  | .renew member now => { r with membership := (r.membership.renew member now).2 }
  | .recordCatchUp member versions =>
    { r with membership := r.membership.recordCatchUp member versions }

/-- The registry with what its history says: the last generation admitted
per id, the closes whose `Disconnected` event is still to be handled, and
the most of them there were at a time. -/
structure RegistryWorld where
  r : RegistryState
  lastAdmitted : U32 → Option Member
  closes : Member → Nat
  most : Member → Nat

def RegistryWorld.apply (w : RegistryWorld) (op : RegistryOp) : RegistryWorld where
  r := w.r.apply op
  lastAdmitted := match op with
    | .register group now ext =>
      match (w.r.registerGroupWith group now ext).1 with
      | .ok _ => update w.lastAdmitted group.member.learnerId (some group.member)
      | .error _ => w.lastAdmitted
    | _ => w.lastAdmitted
  closes := match op with
    | .unregister member => update w.closes member (w.closes member + 1)
    | .disconnectHandled member => update w.closes member (w.closes member - 1)
    | _ => w.closes
  most := match op with
    | .unregister member =>
      update w.most member (max (w.most member) (w.closes member + 1))
    | _ => w.most

def RegistryWorld.start (membership : Membership) (record : Option (List UInt8)) : RegistryWorld :=
  ⟨.new membership record, fun _ => none, fun _ => 0, fun _ => 0⟩

def registryRuns (membership : Membership) (record : Option (List UInt8)) :
    System RegistryWorld where
  init w := membership.live = .empty ∧ w = .start membership record
  step w w' := ∃ op : RegistryOp, w' = w.apply op

/-- On the roster: in `current` or under recovery. -/
def RegistryState.OnRoster (r : RegistryState) (m : Member) : Prop :=
  r.current.find m.learnerId = some m ∨ r.recovering.find m.learnerId = some m

theorem isLive_iff {m : Membership} : m.isLive x = true
      ↔ ∃ l, m.live.find x.learnerId = some l ∧ l.generation = x.generation := by
  unfold isLive
  cases hl : m.live.find x.learnerId with
  | none => simp
  | some l => simp

theorem isLive_congr {m m' : Membership} (h : m'.live = m.live) (x : Member) :
    m'.isLive x = m.isLive x := by
  unfold isLive
  rw [h]

section

variable (m : Membership)

theorem live_retire (x : Member) : (m.retire x).live = m.live := rfl

/-- After an admission the admitted generation is live, and it alone under
its id. -/
theorem isLive_admitMember {m m' : Membership} {a : Admission}
    (h : m.admitMember x now = (.ok a, m')) (y : Member) :
    m'.isLive y = true ↔ y = x ∨ y.learnerId ≠ x.learnerId ∧ m.isLive y = true := by
  have hlive : m'.live = m.live.insert x.learnerId
      ⟨x.generation, now, m.expired.contains x.learnerId, none⟩ := by
    unfold admitMember at h
    split at h
    · cases h
    split at h
    · cases h
    · obtain ⟨-, rfl⟩ := Prod.mk.inj h
      cases hl : m.live.find x.learnerId with
      | none => rfl
      | some l => rfl
  rw [isLive_iff, isLive_iff, hlive]
  by_cases hid : y.learnerId = x.learnerId
  · cases x
    cases y
    simp_all [eq_comm]
  · have hne : y ≠ x := fun he => hid (he ▸ rfl)
    simp [find_insert_ne _ _ hid, hid, hne]

theorem isLive_depart (x : Member) : (m.depart x).isLive y = true ↔ y ≠ x ∧ m.isLive y = true := by
  unfold depart
  rw [isLive_congr (live_retire _ x)]
  cases hx : m.isLive x with
  | true =>
    rw [if_pos rfl, isLive_iff, isLive_iff]
    dsimp only [bump]
    rw [find_erase]
    by_cases hid : y.learnerId = x.learnerId
    · rw [if_pos hid]
      constructor
      · rintro ⟨l, hl, -⟩
        cases hl
      · intro hand
        exact absurd (isLive_unique (isLive_iff.2 hand.2) hx hid) hand.1
    · rw [if_neg hid]
      exact (and_iff_right fun he => hid (by rw [he])).symm
  | false =>
    rw [if_neg Bool.false_ne_true]
    refine (and_iff_right_of_imp fun hy he => ?_).symm
    rw [he, hx] at hy
    cases hy

theorem find_live_foldl_expireOne (xs : List Member) (m : Membership) :
    (xs.foldl Membership.expireOne m).live.find id
      = if id ∈ xs.map Member.learnerId then none else m.live.find id := by
  induction xs generalizing m with
  | nil => rfl
  | cons x xs ih =>
    refine (ih (m.expireOne x)).trans ?_
    show (if id ∈ xs.map Member.learnerId then none
      else (m.live.erase x.learnerId).find id) = _
    rw [find_erase]
    by_cases hx : id = x.learnerId <;> simp [hx]

theorem isLive_expire (now : Nat) (y : Member) :
    (m.expire now).2.isLive y = true ↔ y ∉ m.gone now ∧ m.isLive y = true := by
  show isLive ((m.gone now).foldl expireOne m) y = true ↔ _
  rw [isLive_iff, isLive_iff, find_live_foldl_expireOne]
  by_cases hid : y.learnerId ∈ (m.gone now).map Member.learnerId
  · rw [if_pos hid]
    obtain ⟨x, hx, hxid⟩ := mem_map.1 hid
    constructor
    · rintro ⟨l, hl, -⟩
      cases hl
    · intro hand
      -- the live generation of an expired island is the expired one
      have hlx : m.isLive x = true := isLive_iff.2 (mem_gone hx)
      have hly : m.isLive y = true := isLive_iff.2 hand.2
      obtain rfl := isLive_unique hly hlx hxid.symm
      exact absurd hx hand.1
  · rw [if_neg hid]
    exact (and_iff_right fun hmem => hid (mem_map.2 ⟨y, hmem, rfl⟩)).symm

theorem isLive_insert {m : Membership} {l l' : LiveMember} (hl : m.live.find id = some l)
    (hgen : l'.generation = l.generation) (y : Member) :
    isLive { m with live := m.live.insert id l' } y = m.isLive y := by
  unfold isLive
  rw [find_insert]
  by_cases hid : y.learnerId = id
  · simp [hid, hl, hgen]
  · rw [if_neg hid]

theorem isLive_renew (x : Member) (now : Nat) (y : Member) :
    (m.renew x now).2.isLive y = m.isLive y := by
  unfold renew
  split
  · next l hl =>
    split
    · refine isLive_insert hl ?_ y
      rfl
    · rfl
  · rfl

theorem isLive_recordCatchUp (x : Member) (versions : List Nat) (y : Member) :
    (m.recordCatchUp x versions).isLive y = m.isLive y := by
  unfold recordCatchUp
  split
  · next l hl =>
    split
    · refine isLive_insert hl ?_ y
      rfl
    · rfl
  · rfl

end

/-- Every member is under its own id. -/
def Keyed (map : SortedMap U32 Member) : Prop := ∀ id m, map.find id = some m → m.learnerId = id

variable {map : SortedMap U32 Member}

theorem keyed_insert (h : Keyed map) (x : Member) : Keyed (map.insert x.learnerId x) := by
  intro id m hm
  obtain ⟨rfl, rfl⟩ | ⟨-, hm⟩ := find_insert_cases hm
  · rfl
  · exact h id m hm

theorem keyed_erase (h : Keyed map) (id : U32) : Keyed (map.erase id) := by
  intro id' m hm
  exact h id' m (find_erase_cases hm).2

theorem find_removeSame (map : SortedMap U32 Member) : (removeSame map x).find id
      = if id = x.learnerId ∧ map.find id = some x then none else map.find id := by
  unfold removeSame
  by_cases hx : map.find x.learnerId = some x
  · rw [if_pos hx, find_erase]
    by_cases hid : id = x.learnerId
    · rw [if_pos hid, if_pos ⟨hid, hid ▸ hx⟩]
    · rw [if_neg hid, if_neg fun h => hid h.1]
  · rw [if_neg hx, if_neg]
    intro h
    exact hx (h.1 ▸ h.2)

theorem find_removeAll (hkey : Keyed map) (xs : List Member) :
    (xs.foldl removeSame map).find id = (map.find id).filter fun m => decide (m ∉ xs) := by
  induction xs generalizing map with
  | nil =>
    show map.find id = _
    cases map.find id with
    | none => rfl
    | some m => simp [Option.filter]
  | cons x xs ih =>
    have hkey' : Keyed (removeSame map x) := by
      intro id' m hm
      rw [find_removeSame] at hm
      split at hm
      · cases hm
      · exact hkey id' m hm
    refine (ih hkey').trans ?_
    rw [find_removeSame]
    cases hf : map.find id with
    | none => simp
    | some m =>
      have hid := hkey id m hf
      by_cases hmx : m = x
      · subst hmx
        simp [Option.filter, hid]
      · simp [Option.filter, hmx]

theorem foldl_leaveRoster (xs : List Member) (r : RegistryState) : xs.foldl leaveRoster r = { r with
          current := xs.foldl removeSame r.current
          recovering := xs.foldl removeSame r.recovering } := by
  induction xs generalizing r with
  | nil => rfl
  | cons x xs ih => exact ih (r.leaveRoster x)

theorem persist_frame (r : RegistryState) : r.persistMembership.current = r.current
      ∧ r.persistMembership.groups = r.groups ∧ r.persistMembership.recovering = r.recovering
      ∧ r.persistMembership.closing = r.closing
      ∧ r.persistMembership.membership.live = r.membership.live := by
  unfold persistMembership
  split <;> exact ⟨rfl, rfl, rfl, rfl, rfl⟩

/-- The counter of a generation counts `n` closes, and is gone with the
last. -/
def Counts (count : Option U32) (n : Nat) : Prop :=
  (count.map Fin.val).getD 0 = n ∧ count ≠ some 0

theorem Counts.close {count : Option U32} {n : Nat} (h : Counts count n) (hn : n + 1 < 256 ^ 4) :
    Counts (some (count.getD 0 + 1)) (n + 1) := by
  obtain ⟨rfl, -⟩ := h
  have hval : (count.getD 0 + 1).val = (count.map Fin.val).getD 0 + 1 := by
    cases count with
    | none => rfl
    | some c => exact Fin.val_add_one_of_lt' hn
  exact ⟨hval, fun hzero => nomatch hval.symm.trans (congrArg Fin.val (some.inj hzero))⟩

theorem Counts.handle {c : U32} {n : Nat} (h : Counts (some c) n) :
    Counts (if c - 1 = 0 then none else some (c - 1)) (n - 1) := by
  obtain ⟨rfl, hc⟩ := h
  have hval := Fin.val_sub_one_of_ne_zero fun hzero => hc (congrArg some hzero)
  split
  · next hlast => exact ⟨(congrArg Fin.val hlast).symm.trans hval, nofun⟩
  · next hlast => exact ⟨hval, fun hzero => hlast (some.inj hzero)⟩

structure RegistryOk (w : RegistryWorld) : Prop where
  disjoint : ∀ id, w.r.current.find id = none ∨ w.r.recovering.find id = none
  current : Keyed w.r.current
  recovering : Keyed w.r.recovering
  registered : ∀ m, w.r.OnRoster m → w.r.groups.contains m = true
  live : ∀ m, w.r.OnRoster m → w.r.membership.isLive m = true
  last : ∀ m, w.r.membership.isLive m = true → w.lastAdmitted m.learnerId = some m
  closing : ∀ m, w.most m < 256 ^ 4 → Counts (w.r.closing.find m) (w.closes m)

variable {w : RegistryWorld}

theorem registryOk_init {membership : Membership} {record : Option (List UInt8)}
    (h : (registryRuns membership record).init w) : RegistryOk w := by
  obtain ⟨hlive, rfl⟩ := h
  refine ⟨fun _ => .inl rfl, nofun, nofun, fun m hm => hm.elim nofun nofun,
    fun m hm => hm.elim nofun nofun, ?_, fun _ _ => ⟨rfl, nofun⟩⟩
  intro m hm
  obtain ⟨l, hl, -⟩ := isLive_iff.1 hm
  have hl' : membership.live.find m.learnerId = some l := hl
  rw [hlive] at hl'
  cases hl'

theorem register_ok {res : Option Member × Admission}
    (h : r.registerGroupWith group now ext = (.ok res, r')) :
    ∃ a m, r.membership.admitMember group.member now = (.ok a, m)
      ∧ r' = (r.enter group ext.recover m).persistMembership := by
  dsimp only [registerGroupWith] at h
  split at h
  · cases h
  · split at h
    · cases h
    · split at h
      · cases h
      · next a m hadm => exact ⟨a, m, hadm, (Prod.mk.inj h).2.symm⟩

theorem register_error {e : RegisterError}
    (h : r.registerGroupWith group now ext = (.error e, r')) : r' = r := by
  dsimp only [registerGroupWith] at h
  split at h
  · exact (Prod.mk.inj h).2.symm
  split at h
  · exact (Prod.mk.inj h).2.symm
  · split at h
    · next m hadm =>
      obtain rfl := admit_refused hadm
      exact (Prod.mk.inj h).2.symm
    · cases h

/-- The roster after a registration: the new generation, and the other
islands as before. -/
theorem onRoster_enter (r : RegistryState) {recover : Bool} {m : Membership} (y : Member) :
    (r.enter group recover m).OnRoster y
      ↔ y = group.member ∨ y.learnerId ≠ group.member.learnerId ∧ r.OnRoster y := by
  unfold OnRoster enter
  by_cases hid : y.learnerId = group.member.learnerId
  · have hsame : (some group.member = some y) ↔ y = group.member :=
      ⟨fun h => (some.inj h).symm, fun h => h ▸ rfl⟩
    cases recover <;> simp [hid, hsame]
  · have hne : y ≠ group.member := fun h => hid (h ▸ rfl)
    cases recover <;> simp [hid, hne, find_insert_ne _ _ hid, find_erase_ne _ hid]

theorem disjoint_enter {recover : Bool} {m : Membership}
    (h : ∀ id, r.current.find id = none ∨ r.recovering.find id = none) (id : U32) :
    (r.enter group recover m).current.find id = none
      ∨ (r.enter group recover m).recovering.find id = none := by
  unfold enter
  by_cases hid : id = group.member.learnerId
  · subst hid
    cases recover with
    | true => exact .inl (find_erase_self _ _)
    | false => exact .inr (find_erase_self _ _)
  · have hold := h id
    cases recover <;> simpa [find_insert_ne _ _ hid, find_erase_ne _ hid] using hold

theorem keyed_enter {recover : Bool} {m : Membership} (hc : Keyed r.current)
    (hr : Keyed r.recovering) : Keyed (r.enter group recover m).current
      ∧ Keyed (r.enter group recover m).recovering := by
  cases recover with
  | true => exact ⟨keyed_erase hc _, keyed_insert hr _⟩
  | false => exact ⟨keyed_insert hc _, keyed_erase hr _⟩

theorem registryOk_register (h : RegistryOk w) (group : Group) (now : Nat) (ext : HelloExt) :
    RegistryOk (w.apply (.register group now ext)) := by
  cases hreg : w.r.registerGroupWith group now ext with
  | mk res r' =>
    cases res with
    | error e =>
      have hsame : w.apply (.register group now ext) = w := by
        unfold RegistryWorld.apply RegistryState.apply
        simp only [hreg]
        rw [register_error hreg]
      rw [hsame]
      exact h
    | ok res =>
      have hr : (w.apply (.register group now ext)).r = r' := by
        show (w.r.registerGroupWith group now ext).2 = r'
        rw [hreg]
      have hlast : (w.apply (.register group now ext)).lastAdmitted
          = update w.lastAdmitted group.member.learnerId (some group.member) := by
        unfold RegistryWorld.apply
        simp only [hreg]
      have hcloses : (w.apply (.register group now ext)).closes = w.closes := rfl
      have hmost : (w.apply (.register group now ext)).most = w.most := rfl
      generalize w.apply (.register group now ext) = w' at hr hlast hcloses hmost ⊢
      obtain ⟨a, m, hadm, hr'⟩ := register_ok hreg
      obtain ⟨h1, h2, h3, h4, h5⟩ := persist_frame (w.r.enter group ext.recover m)
      rw [← hr', ← hr] at h1 h2 h3 h4 h5
      have h5 : w'.r.membership.live = m.live := h5
      have hlive := isLive_admitMember hadm
      have hroster : ∀ y, w'.r.OnRoster y ↔ y = group.member
          ∨ y.learnerId ≠ group.member.learnerId ∧ w.r.OnRoster y := by
        intro y
        rw [← onRoster_enter w.r]
        unfold OnRoster
        rw [h1, h3]
      obtain ⟨hcurrent, hrecovering⟩ := keyed_enter h.current h.recovering
      refine ⟨?_, h1 ▸ hcurrent, h3 ▸ hrecovering, ?_, ?_, ?_, ?_⟩
      · rw [h1, h3]
        exact disjoint_enter h.disjoint
      · intro y hy
        rw [h2]
        exact SortedMap.contains_insert.2
          (((hroster y).1 hy).imp_right fun hold => h.registered y hold.2)
      · intro y hy
        rw [isLive_congr h5, hlive]
        exact ((hroster y).1 hy).imp_right (And.imp_right (h.live y))
      · intro y hy
        rw [isLive_congr h5, hlive] at hy
        rw [hlast]
        rcases hy with rfl | ⟨hid, hold⟩
        · exact update_self _ _ _
        · rw [update_of_ne hid]
          exact h.last y hold
      · intro y
        rw [h4, hcloses, hmost]
        exact h.closing y

/-- A step that takes the members of `xs`, and no one else, off the
roster. -/
structure Leaves (xs : List Member) (w w' : RegistryWorld) : Prop where
  current : w'.r.current = xs.foldl removeSame w.r.current
  recovering : w'.r.recovering = xs.foldl removeSame w.r.recovering
  groups : ∀ y, y ∉ xs → w.r.groups.contains y = true → w'.r.groups.contains y = true
  live : ∀ y, w'.r.membership.isLive y = true ↔ y ∉ xs ∧ w.r.membership.isLive y = true
  last : w'.lastAdmitted = w.lastAdmitted

variable {xs : List Member} {w' : RegistryWorld}

theorem Leaves.onRoster (h : RegistryOk w) (hl : Leaves xs w w') (y : Member) :
    w'.r.OnRoster y ↔ y ∉ xs ∧ w.r.OnRoster y := by
  have hmap : ∀ map : SortedMap U32 Member, Keyed map →
      ((xs.foldl removeSame map).find y.learnerId = some y
        ↔ y ∉ xs ∧ map.find y.learnerId = some y) := by
    intro map hkey
    simp [find_removeAll hkey, filter_eq_some_iff, and_comm]
  unfold OnRoster
  rw [hl.current, hl.recovering, hmap _ h.current, hmap _ h.recovering, ← and_or_left]

theorem Leaves.ok (h : RegistryOk w) (hl : Leaves xs w w')
    (hclosing : ∀ m, w'.most m < 256 ^ 4 → Counts (w'.r.closing.find m) (w'.closes m)) :
    RegistryOk w' := by
  have hkeyed : ∀ map : SortedMap U32 Member, Keyed map → Keyed (xs.foldl removeSame map) := by
    intro map hkey id m hm
    rw [find_removeAll hkey, filter_eq_some_iff] at hm
    exact hkey id m hm.1
  refine ⟨?_, ?_, ?_, ?_, ?_, ?_, hclosing⟩
  · intro id
    rw [hl.current, hl.recovering, find_removeAll h.current, find_removeAll h.recovering]
    rcases h.disjoint id with hnone | hnone <;> simp [hnone]
  · rw [hl.current]
    exact hkeyed _ h.current
  · rw [hl.recovering]
    exact hkeyed _ h.recovering
  · intro y hy
    obtain ⟨hne, hold⟩ := (hl.onRoster h y).1 hy
    exact hl.groups y hne (h.registered y hold)
  · intro y hy
    obtain ⟨hne, hold⟩ := (hl.onRoster h y).1 hy
    exact (hl.live y).2 ⟨hne, h.live y hold⟩
  · intro y hy
    rw [hl.last]
    exact h.last y ((hl.live y).1 hy).2

theorem unregister_frame (r : RegistryState) : (r.unregister x).current = removeSame r.current x
      ∧ (r.unregister x).groups = r.groups.erase x
      ∧ (r.unregister x).recovering = removeSame r.recovering x
      ∧ (r.unregister x).closing = r.closing.insert x ((r.closing.find x).getD 0 + 1)
      ∧ (r.unregister x).membership.live = (r.membership.depart x).live := persist_frame _

section

variable (w)

theorem leaves_unregister (x : Member) : Leaves [x] w (w.apply (.unregister x)) := by
  obtain ⟨h1, h2, h3, -, h5⟩ := unregister_frame w.r
  refine ⟨h1, h3, fun y hy hc => ?_, fun y => ?_, rfl⟩
  · refine (congrArg (SortedMap.contains · y) h2).trans (SortedMap.contains_erase.2 ⟨?_, hc⟩)
    exact fun he => hy (mem_singleton.2 he)
  · rw [mem_singleton, ← isLive_depart]
    exact Bool.eq_iff_iff.1 (isLive_congr h5 y)

theorem leaves_expireLeases (now : Nat) :
    Leaves (w.r.membership.gone now) w (w.apply (.expireLeases now)) := by
  have hfold := foldl_leaveRoster (w.r.membership.gone now)
    { w.r with membership := (w.r.membership.expire now).2 }
  obtain ⟨h1, h2, h3, -, h5⟩ := persist_frame ((w.r.membership.gone now).foldl leaveRoster
      { w.r with membership := (w.r.membership.expire now).2 })
  rw [hfold] at h1 h2 h3 h5
  have hr : (w.apply (.expireLeases now)).r = ((w.r.membership.gone now).foldl leaveRoster
          { w.r with membership := (w.r.membership.expire now).2 }).persistMembership := rfl
  rw [hfold] at hr
  refine ⟨by rw [hr]; exact h1, by rw [hr]; exact h3, ?_, ?_, rfl⟩
  · intro y _ hc
    rw [hr, h2]
    exact hc
  · intro y
    rw [hr, isLive_congr h5]
    exact isLive_expire w.r.membership now y

theorem apply_promote (x : Member) : w.apply (.promoteRecovered x) = if w.r.isRecovering x then
      ⟨{ w.r with
          recovering := w.r.recovering.erase x.learnerId
          current := w.r.current.insert x.learnerId x }, w.lastAdmitted, w.closes, w.most⟩
      else w := by
  dsimp only [RegistryWorld.apply, RegistryState.apply, promoteRecovered]
  split <;> rfl

end

theorem find_disconnectHandled (r : RegistryState) (x m : Member) :
    (r.disconnectHandled x).closing.find m = if m = x then (r.closing.find x).bind fun c =>
      if c - 1 = 0 then none else some (c - 1) else r.closing.find m := by
  unfold disconnectHandled
  split
  · next c hc =>
    rw [hc]
    by_cases hlast : c - 1 = 0 <;> by_cases hm : m = x <;>
      simp [hlast, hm, find_insert_ne, find_erase_ne]
  · next hx =>
    split
    · next hm => rw [hm, hx]; rfl
    · rfl

section

variable (h : RegistryOk w)
include h

theorem closing_unregister (x : Member) : let w' := w.apply (.unregister x)
    ∀ m, w'.most m < 256 ^ 4 → Counts (w'.r.closing.find m) (w'.closes m) := by
  intro w' m hmost
  have hclosing : w'.r.closing = w.r.closing.insert x ((w.r.closing.find x).getD 0 + 1) :=
    (unregister_frame w.r).2.2.2.1
  have hcloses : w'.closes = update w.closes x (w.closes x + 1) := rfl
  have hmosts : w'.most = update w.most x (max (w.most x) (w.closes x + 1)) := rfl
  rw [hmosts] at hmost
  rw [hclosing, hcloses]
  by_cases hm : m = x
  · subst hm
    rw [update_self, max_lt_iff] at hmost
    rw [find_insert_self, update_self]
    exact (h.closing m hmost.1).close hmost.2
  · rw [update_of_ne hm] at hmost
    rw [find_insert_ne _ _ hm, update_of_ne hm]
    exact h.closing m hmost

theorem registryOk_disconnectHandled (x : Member) :
    RegistryOk (w.apply (.disconnectHandled x)) := by
  have hclosing : ∀ m, w.most m < 256 ^ 4 → Counts ((w.r.disconnectHandled x).closing.find m)
      (update w.closes x (w.closes x - 1) m) := by
    intro m hmost
    have hold := h.closing m hmost
    rw [find_disconnectHandled]
    by_cases hm : m = x
    · subst hm
      rw [if_pos rfl, update_self]
      cases hc : w.r.closing.find m with
      | none =>
        rw [hc] at hold
        exact ⟨by rw [← hold.1]; rfl, nofun⟩
      | some c =>
        rw [hc] at hold
        exact hold.handle
    · rw [if_neg hm, update_of_ne hm]
      exact hold
  have hframe : w.r.disconnectHandled x
      = { w.r with closing := (w.r.disconnectHandled x).closing } := by
    unfold disconnectHandled
    split <;> rfl
  show RegistryOk ⟨w.r.disconnectHandled x, w.lastAdmitted, update w.closes x (w.closes x - 1),
    w.most⟩
  rw [hframe]
  exact { h with closing := hclosing }

theorem onRoster_promote (hx : w.r.recovering.find x.learnerId = some x) (y : Member) :
    OnRoster { w.r with
      recovering := w.r.recovering.erase x.learnerId
      current := w.r.current.insert x.learnerId x } y ↔ w.r.OnRoster y := by
  unfold OnRoster
  by_cases hid : y.learnerId = x.learnerId
  · have hnone : w.r.current.find x.learnerId = none := by
      rcases h.disjoint x.learnerId with hc | hc
      · exact hc
      · rw [hx] at hc
        cases hc
    simp [hid, hx, hnone]
  · simp [find_insert_ne _ _ hid, find_erase_ne _ hid]

theorem registryOk_promoteRecovered (x : Member) : RegistryOk (w.apply (.promoteRecovered x)) := by
  rw [apply_promote]
  split
  · next hx =>
    have hroster := onRoster_promote h (of_decide_eq_true hx)
    refine ⟨?_, keyed_insert h.current x, keyed_erase h.recovering _, ?_, ?_,
      h.last, h.closing⟩
    · intro id
      by_cases hid : id = x.learnerId
      · rw [hid]
        exact .inr (find_erase_self _ _)
      · rw [find_insert_ne _ _ hid, find_erase_ne _ hid]
        exact h.disjoint id
    · intro y hy
      exact h.registered y ((hroster y).1 hy)
    · intro y hy
      exact h.live y ((hroster y).1 hy)
  · exact h

theorem RegistryOk.with_membership {m : Membership}
    (hlive : ∀ y, m.isLive y = w.r.membership.isLive y) :
    RegistryOk { w with r := { w.r with membership := m } } :=
  { h with
    live := fun y hy => (hlive y).trans (h.live y hy)
    last := fun y hy => h.last y ((hlive y).symm.trans hy) }

theorem registryOk_apply (op : RegistryOp) : RegistryOk (w.apply op) := by
  cases op with
  | register group now ext => exact registryOk_register h group now ext
  | unregister x => exact (leaves_unregister w x).ok h (closing_unregister h x)
  | disconnectHandled x => exact registryOk_disconnectHandled h x
  | promoteRecovered x => exact registryOk_promoteRecovered h x
  | expireLeases now =>
    have hclosing : (w.apply (.expireLeases now)).r.closing = w.r.closing := by
      refine (persist_frame ((w.r.membership.gone now).foldl leaveRoster
        { w.r with membership := (w.r.membership.expire now).2 })).2.2.2.1.trans ?_
      rw [foldl_leaveRoster]
    refine (leaves_expireLeases w now).ok h fun m => ?_
    rw [hclosing]
    exact h.closing m
  | renew x now => exact h.with_membership (isLive_renew _ x now)
  | recordCatchUp x versions => exact h.with_membership (isLive_recordCatchUp _ x versions)

omit h in
theorem registryOk_reachable {membership : Membership} {record : Option (List UInt8)}
    (h : (registryRuns membership record).Reachable w) : RegistryOk w := by
  refine System.invariant (P := RegistryOk) ?_ ?_ h
  · intro w hw
    exact registryOk_init hw
  · rintro w w' _ hok ⟨op, rfl⟩
    exact registryOk_apply hok op

/-- Where a generation stands: in `current`, under recovery, or live. -/
structure Kept (w w' : RegistryWorld) (y : Member) : Prop where
  current : w.r.current.find y.learnerId = some y → w'.r.current.find y.learnerId = some y
  recovering : w.r.recovering.find y.learnerId = some y → w'.r.recovering.find y.learnerId = some y
  live : w.r.membership.isLive y = true → w'.r.membership.isLive y = true

theorem Leaves.kept (hl : Leaves xs w w') (hy : y ∉ xs) : Kept w w' y := by
  have hmap : ∀ map : SortedMap U32 Member, Keyed map → map.find y.learnerId = some y →
      (xs.foldl removeSame map).find y.learnerId = some y := by
    intro map hkey hm
    rw [find_removeAll hkey, hm]
    exact filter_eq_some_iff.2 ⟨rfl, decide_eq_true hy⟩
  refine ⟨fun hc => ?_, fun hc => ?_, fun hc => (hl.live y).2 ⟨hy, hc⟩⟩
  · rw [hl.current]
    exact hmap _ h.current hc
  · rw [hl.recovering]
    exact hmap _ h.recovering hc

theorem kept_promote (hne : x ≠ y) : Kept w (w.apply (.promoteRecovered x)) y := by
  rw [apply_promote]
  split
  · next hx =>
    have hx' : w.r.recovering.find x.learnerId = some x := of_decide_eq_true hx
    refine ⟨fun hc => ?_, fun hc => ?_, id⟩ <;> by_cases hid : y.learnerId = x.learnerId
    · rcases h.disjoint x.learnerId with hnone | hnone
      · rw [hid, hnone] at hc
        cases hc
      · rw [hx'] at hnone
        cases hnone
    · rwa [find_insert_ne _ _ hid]
    · rw [hid, hx'] at hc
      exact absurd (some.inj hc) hne
    · rwa [find_erase_ne _ hid]
  · exact ⟨id, id, id⟩

end

/-- What the registry promises about the generations it knows. -/
structure RegistryFacts (w : RegistryWorld) : Prop where
  /-- `current` and `recovering` never hold the same learner. -/
  disjoint : ∀ id, w.r.current.find id = none ∨ w.r.recovering.find id = none
  /-- Who is in them is registered, live, and the last one admitted. -/
  roster : ∀ id m, w.r.current.find id = some m ∨ w.r.recovering.find id = some m →
    m.learnerId = id ∧ w.r.groups.contains m = true
      ∧ w.r.membership.isLive m = true ∧ w.lastAdmitted id = some m
  /-- A close of another generation leaves this one in place. -/
  unregister : ∀ x y, x ≠ y → Kept w (w.apply (.unregister x)) y
  promote : ∀ x y, x ≠ y → Kept w (w.apply (.promoteRecovered x)) y
  /-- Only a live generation can expire, and the others stay. -/
  expire : ∀ now, (∀ x ∈ w.r.membership.gone now, w.r.membership.isLive x = true)
    ∧ ∀ y, y ∉ w.r.membership.gone now → Kept w (w.apply (.expireLeases now)) y
  /-- The counter of a generation is its unhandled closes, if there never
  were `2 ^ 32` of them. -/
  closing : ∀ m, w.most m < 2 ^ 32 →
    ((w.r.closing.find m).map Fin.val).getD 0 = w.closes m ∧ w.r.closing.find m ≠ some 0
  /-- A failed registration leaves every map unchanged. -/
  failed : ∀ group now ext e r', w.r.registerGroupWith group now ext = (.error e, r') → r' = w.r

/-- THE REGISTRY, in every interleaving of its operations. -/
theorem registry_kept {membership : Membership} {record : Option (List UInt8)}
    {w : RegistryWorld} (hr : (registryRuns membership record).Reachable w) : RegistryFacts w := by
  have h := registryOk_reachable hr
  refine ⟨h.disjoint, ?_, ?_, fun _ _ => kept_promote h, ?_, h.closing,
    fun _ _ _ _ _ => register_error⟩
  · intro id m hm
    have hid : m.learnerId = id := hm.elim (h.current id m) (h.recovering id m)
    have hon : w.r.OnRoster m := by
      unfold OnRoster
      rw [hid]
      exact hm
    have hlive := h.live m hon
    exact ⟨hid, h.registered m hon, hlive, hid ▸ h.last m hlive⟩
  · intro x y hne
    exact (leaves_unregister w x).kept h fun hmem =>
      hne (mem_singleton.1 hmem).symm
  · intro now
    refine ⟨fun x hx => isLive_iff.2 (mem_gone hx), fun y hy => ?_⟩
    exact (leaves_expireLeases w now).kept h hy

/-- An island reconnects before its old connection closes. -/
def sampleRegistry : RegistryWorld := ((RegistryWorld.start (.new .default 4) none).apply
    (.register ⟨⟨0, 1⟩, 0⟩ 0 ⟨none, false⟩)).apply (.register ⟨⟨0, 2⟩, 1⟩ 1 ⟨none, false⟩)

theorem registry_kept_sample :
    (sampleRegistry.apply (.unregister ⟨0, 1⟩)).r.current.find 0 = some ⟨0, 2⟩ := by
  have hstart : (registryRuns (.new .default 4) none).Reachable
      (.start (.new .default 4) none) := .init ⟨rfl, rfl⟩
  have hr : (registryRuns (.new .default 4) none).Reachable sampleRegistry :=
    (hstart.step ⟨.register ⟨⟨0, 1⟩, 0⟩ 0 ⟨none, false⟩, rfl⟩).step
      ⟨.register ⟨⟨0, 2⟩, 1⟩ 1 ⟨none, false⟩, rfl⟩
  have hne : (⟨0, 1⟩ : Member) ≠ ⟨0, 2⟩ := by decide
  exact ((registry_kept hr).unregister ⟨0, 1⟩ ⟨0, 2⟩ hne).current rfl

end Yeto.Server
