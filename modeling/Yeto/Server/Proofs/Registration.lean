/-
Every change of the registry (`RegStep`) is one of its own operations, so
the registry's invariant holds in every run (`regOk_reachable`), and the
connections of the roster are of distinct islands (`nodup_currentGroups`).
-/
import Yeto.Server.Proofs.Step

namespace Yeto.Server

open Lib Downlink List LogEntry RegistryState SortedMap

namespace Syncer

variable {n : Numerics} {cfg : Config} {s s' : Syncer} {now : Nat} {group : Group}
  {ext : HelloExt} {op : RegistryOp} {i : Start cfg}

theorem RegStep.ops (hs : RegStep s s') :
    ∃ ops : List RegistryOp, s'.reg = ops.foldl RegistryState.apply s.reg := by
  cases hs with
  | same idle => exact ⟨[], idle.reg⟩
  | @register member now ext replaced admission reg _ _ _ =>
    refine ⟨[.register ⟨member, s.nextConn⟩ now ext], ?_⟩
    rw [foldl_cons, foldl_nil, RegistryState.apply, reg]
  | refuse reg _ _ _ => exact ⟨[], reg⟩
  | @unregister member reg _ _ _ => exact ⟨[.unregister member], reg⟩
  | @expire now reg _ _ _ => exact ⟨[.expireLeases now], reg⟩
  | @renew member now reg _ _ _ => exact ⟨[.renew member now], reg⟩
  | @record group floor reg _ _ _ => exact ⟨[.recordCatchUp group.member floor], reg⟩
  | @promote group _ reg _ _ _ =>
    exact ⟨[.promoteRecovered group.member, .recordCatchUp group.member s.st.versions], reg⟩
  | @handled group _ reg _ _ _ =>
    rcases reg with reg | ⟨-, reg⟩
    · exact ⟨[], reg⟩
    · exact ⟨[.promoteRecovered group.member], reg⟩
  | @disconnected member reg _ _ _ => exact ⟨[.disconnectHandled member], reg⟩

end Syncer

/-- The registry satisfies its own invariant, a connection is kept under
its member, and the options stay. -/
structure RegOk (c : MembershipConfig) (r : RegistryState) : Prop where
  ok : ∃ last closes most, RegistryOk ⟨r, last, closes, most⟩
  keyed : ∀ m g, r.groups.find m = some g → g.member = m
  configured : r.membership.cfg = c

section Registry

variable {c : MembershipConfig} {r r' : RegistryState}

theorem cfg_persist : r.persistMembership.membership.cfg = r.membership.cfg := by
  unfold persistMembership
  split <;> rfl

theorem cfg_admitMember {m m' : Membership} {x : Member} {a : Admission}
    (h : m.admitMember x now = (.ok a, m')) : m'.cfg = m.cfg := by
  unfold Membership.admitMember at h
  split at h
  · cases h
  · split at h <;> cases h
    split <;> rfl

theorem cfg_expire {m : Membership} {now : Nat} : (m.expire now).2.cfg = m.cfg := by
  have hfold : ∀ (xs : List Member) (m : Membership),
      (xs.foldl Membership.expireOne m).cfg = m.cfg := by
    intro xs
    induction xs with
    | nil => exact fun _ => rfl
    | cons x xs ih => exact fun m => (ih _).trans rfl
  exact hfold _ m

theorem register_frame {res : Option Member × Admission}
    (h : r.registerGroupWith group now ext = (.ok res, r')) :
    r'.membership.cfg = r.membership.cfg ∧ r'.groups = r.groups.insert group.member group := by
  obtain ⟨a, m, hm, rfl⟩ := register_ok h
  rw [cfg_persist, (persist_frame _).2.1]
  exact ⟨cfg_admitMember hm, rfl⟩

/-- The options stay, and a connection of the next state was there before,
or is the one that registers. -/
theorem apply_frame : (r.apply op).membership.cfg = r.membership.cfg
    ∧ ∀ m g, (r.apply op).groups.find m = some g → r.groups.find m = some g
      ∨ m = g.member ∧ ∃ now ext, op = .register g now ext := by
  cases op with
  | register group now ext =>
    dsimp only [apply]
    cases hres : r.registerGroupWith group now ext with
    | mk res r' =>
      cases res with
      | error e =>
        rw [register_error hres]
        exact ⟨rfl, fun _ _ => .inl⟩
      | ok res =>
        refine ⟨(register_frame hres).1, fun m g h => ?_⟩
        rw [(register_frame hres).2] at h
        obtain ⟨hm, rfl⟩ | ⟨-, h⟩ := find_insert_cases h
        · exact .inr ⟨hm, now, ext, rfl⟩
        · exact .inl h
  | unregister member =>
    dsimp only [apply, unregister]
    rw [cfg_persist, (persist_frame _).2.1]
    refine ⟨?_, fun m g h => .inl (find_erase_cases h).2⟩
    dsimp only [leaveRoster, Membership.depart, Membership.retire]
    split <;> rfl
  | disconnectHandled member =>
    dsimp only [apply, disconnectHandled]
    split <;> exact ⟨rfl, fun _ _ => .inl⟩
  | promoteRecovered member =>
    dsimp only [apply, promoteRecovered]
    split <;> exact ⟨rfl, fun _ _ => .inl⟩
  | expireLeases now =>
    dsimp only [apply, expireLeases]
    rw [cfg_persist, (persist_frame _).2.1, foldl_leaveRoster]
    exact ⟨cfg_expire, fun _ _ => .inl⟩
  | renew member now =>
    refine ⟨?_, fun _ _ => .inl⟩
    dsimp only [apply, Membership.renew]
    split
    · split <;> rfl
    · rfl
  | recordCatchUp member versions =>
    refine ⟨?_, fun _ _ => .inl⟩
    dsimp only [apply, Membership.recordCatchUp]
    split
    · split <;> rfl
    · rfl

theorem regOk_apply (h : RegOk c r) : RegOk c (r.apply op) where
  ok := by
    obtain ⟨last, closes, most, hok⟩ := h.ok
    exact ⟨_, _, _, registryOk_apply hok op⟩
  keyed m g hg := by
    rcases apply_frame.2 m g hg with hg | ⟨hm, -⟩
    · exact h.keyed m g hg
    · exact hm.symm
  configured := apply_frame.1.trans h.configured

theorem regOk_ops {ops : List RegistryOp} : ∀ {r : RegistryState}, RegOk c r →
      RegOk c (ops.foldl RegistryState.apply r) := by
  induction ops with
  | nil => exact fun h => h
  | cons op ops ih => exact fun h => ih (regOk_apply h)

end Registry

namespace Syncer

variable {n : Numerics} {cfg : Config} {s s' : Syncer}

theorem regOk_new : RegOk cfg.membership (Syncer.new cfg i).reg where
  ok := by
    have hinit : (registryRuns i.membership i.membershipRecord).init
        (.start i.membership i.membershipRecord) := ⟨i.nobody.1, rfl⟩
    exact ⟨_, _, _, registryOk_init hinit⟩
  keyed m g hg := by cases hg
  configured := i.configured

theorem regOk_reachable {allowed : Syncer → Op → Bool} (h : (syncer n cfg i allowed).Reachable s) :
    RegOk cfg.membership s.reg := by
  refine System.invariant (P := fun s => RegOk cfg.membership s.reg) ?_ ?_ h
  · rintro s ⟨-, rfl⟩
    exact regOk_new
  · rintro s s' - hok ⟨op, -, hexec⟩
    obtain ⟨ops, hops⟩ := (exec_steps hexec).2.ops
    rw [hops]
    exact regOk_ops hok

theorem members_filterMap {groups : SortedMap Member Group}
    (hkeyed : ∀ m g, groups.find m = some g → g.member = m) (ms : List Member) :
    List.Sublist ((ms.filterMap groups.find).map Group.member) ms := by
  induction ms with
  | nil => exact .slnil
  | cons m ms ih =>
    rw [filterMap_cons]
    split
    · exact ih.cons m
    · next g hg =>
      rw [map_cons, hkeyed m g hg]
      exact ih.cons_cons m

theorem ids_values {map : SortedMap U32 Member} (h : Keyed map) :
    map.values.map Member.learnerId = map.keys := by
  unfold values SortedMap.keys
  rw [map_map]
  refine map_congr_left fun e he => ?_
  exact h e.1 e.2 ((map.mem_entries_iff e.1 e.2).1 he)

theorem nodup_currentGroups {c : MembershipConfig} {r : RegistryState} (h : RegOk c r) :
    (r.currentGroups.map fun g => g.member.learnerId).Nodup := by
  obtain ⟨last, closes, most, hok⟩ := h.ok
  have hperm : (r.currentGroups.map fun g => g.member.learnerId).Perm
      (((r.current.values.filterMap r.groups.find).map Group.member).map Member.learnerId) := by
    rw [map_map]
    exact (perm_insertionSort _ _).map _
  have hsub := (members_filterMap h.keyed r.current.values).map Member.learnerId
  rw [ids_values hok.current] at hsub
  exact hperm.nodup_iff.2 (hsub.nodup r.current.nodup_keys)

end Syncer

end Yeto.Server
