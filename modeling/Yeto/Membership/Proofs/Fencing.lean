/-
The fence of the membership: a retired generation does not come back.

Every operation retires a list of generations (`Op.ends`), and nothing else
touches the retired record. So the record of an island is the LAST
`RETIRED_PER_ISLAND` entries of the history of its retirements (`WorldOk.log`).
A restart re-retires the persisted record in order (`restart_spec`).

The record counts its islands in a `u32`. `Op.Sound` rules out the departure of
the one id that is never admitted, without which there are fewer than 2³²;
`crowded_record_lost` shows what it can do.
-/
import Yeto.Membership.Model
import Yeto.Lib.System
import Mathlib.Data.Fintype.Card

namespace Yeto.Membership

open Lib List SortedMap Fence Reader Member

variable {xs : List Member} {now : Nat} {id : U32} {member : Member} {cfg : MembershipConfig}
  {idLimit : U32}

/-- A restart: a fresh membership restored from the record. -/
def restart (m : Membership) : Except String Membership :=
  (new m.cfg m.idLimit).restorePersisted m.encodePersisted

inductive Op
  | admitMember (member : Member) (now : Nat)
  | depart (member : Member)
  | expire (now : Nat)
  | renew (member : Member) (now : Nat)
  | recordCatchUp (member : Member) (versions : List Nat)
  | raiseSyncerEpoch (epoch : U64)
  | restart

def apply (m : Membership) : Op → Membership
  | .admitMember member now => (m.admitMember member now).2
  | .depart member => m.depart member
  | .expire now => (m.expire now).2
  | .renew member now => (m.renew member now).2
  | .recordCatchUp member versions => m.recordCatchUp member versions
  | .raiseSyncerEpoch epoch => m.raiseSyncerEpoch epoch
  | .restart =>
    -- a syncer that cannot read its record does not start
    match m.restart with
    | .ok m' => m'
    | .error _ => m

def superseded (m : Membership) (member : Member) : List Member :=
  if member.learnerId ≥ m.idLimit then []
  else if m.isRetired member || m.isLive member then []
  else match m.live.find member.learnerId with
    | some l => [⟨member.learnerId, l.generation⟩]
    | none => []

/-- The generations an operation supersedes, departs or expires. -/
def Op.ends (m : Membership) : Op → List Member
  | .admitMember member _ => m.superseded member
  | .depart member => [member]
  | .expire now => m.gone now
  | _ => []

/-- Id 2³² − 1 is never admitted, so it has no connection to close. -/
def Op.Sound : Op → Prop
  | .depart member => member.learnerId.val ≠ 4294967295
  | _ => True

/-- Log a generation that is not on the record yet. -/
def note (m : Membership) (log : U32 → List U64) (x : Member) : U32 → List U64 :=
  if m.isRetired x then log
  else Function.update log x.learnerId (log x.learnerId ++ [x.generation])

structure World where
  m : Membership
  log : U32 → List U64

def World.apply (w : World) (op : Op) : World where
  m := w.m.apply op
  log := (op.ends w.m).foldl (note w.m) w.log

def World.after (w : World) (ops : List Op) : World := ops.foldl World.apply w

def startWorld (cfg : MembershipConfig) (idLimit : U32) : World := ⟨new cfg idLimit, fun _ => []⟩

def runs (cfg : MembershipConfig) (idLimit : U32) : System World where
  init w := w = startWorld cfg idLimit
  step w w' := ∃ op : Op, op.Sound ∧ w' = w.apply op

theorem fence_insert {m : Membership} (id x : U32) (f : Fence U64) (d : Bool) :
    fence { m with retired := m.retired.insert id f, dirty := d } x
      = if x = id then f else m.fence x := by
  dsimp only [fence]
  rw [find_insert]
  split <;> rfl

theorem fence_retire {m : Membership} : (m.retire member).fence id = if id = member.learnerId
        then (m.fence id).add retiredPerIsland member.generation
        else m.fence id := by
  unfold retire
  rw [fence_insert]
  split
  · next h => rw [h]
  · rfl

theorem find_retired_retire {m : Membership} :
    (m.retire member).retired.find id = if id = member.learnerId
        then some ((m.fence id).add retiredPerIsland member.generation)
        else m.retired.find id := by
  dsimp only [retire]
  rw [find_insert]
  split
  · next h => rw [h]
  · rfl

theorem fence_foldl_retire (xs : List Member) (m : Membership) (id : U32) :
    (xs.foldl retire m).fence id = (m.fence id).addAll retiredPerIsland
          ((xs.filter fun x => decide (x.learnerId = id)).map generation) := by
  induction xs generalizing m with
  | nil => rfl
  | cons x xs ih =>
    refine (ih (m.retire x)).trans ?_
    rw [fence_retire]
    by_cases hx : x.learnerId = id
    · rw [if_pos hx.symm, filter_cons_of_pos (by simpa using hx)]
      rfl
    · rw [if_neg fun h => hx h.symm, filter_cons_of_neg (by simpa using hx)]

theorem find_retired_foldl_retire (m : Membership) (h : ∀ x ∈ xs, x.learnerId ≠ id) :
    (xs.foldl retire m).retired.find id = m.retired.find id := by
  induction xs generalizing m with
  | nil => rfl
  | cons x xs ih =>
    obtain ⟨hx, hxs⟩ := forall_mem_cons.1 h
    refine (ih (m.retire x) hxs).trans ?_
    rw [find_retired_retire, if_neg fun he => hx he.symm]

theorem foldl_retire_frame (xs : List Member) (m : Membership) :
    (xs.foldl retire m).cfg = m.cfg ∧ (xs.foldl retire m).idLimit = m.idLimit
      ∧ (xs.foldl retire m).live = m.live ∧ (xs.foldl retire m).expired = m.expired
      ∧ (xs.foldl retire m).syncerEpoch = m.syncerEpoch := by
  induction xs generalizing m with
  | nil => exact ⟨rfl, rfl, rfl, rfl, rfl⟩
  | cons x xs ih => exact ih (m.retire x)

/-- The part of a membership that an operation on leases leaves to the
retirements. -/
structure SameRecord (m m' : Membership) : Prop where
  cfg : m'.cfg = m.cfg
  idLimit : m'.idLimit = m.idLimit
  retired : m'.retired = m.retired
  syncerEpoch : m'.syncerEpoch = m.syncerEpoch

theorem SameRecord.refl (m : Membership) : SameRecord m m := ⟨rfl, rfl, rfl, rfl⟩

variable {m m' : Membership}

theorem SameRecord.retire (h : SameRecord m m')
    (x : Member) : SameRecord (m.retire x) (m'.retire x) := by
  refine { h with retired := ?_ }
  dsimp only [Membership.retire, fence]
  rw [h.retired]

theorem sameRecord_foldl_expireOne (xs : List Member) (h : SameRecord m m') :
    SameRecord (xs.foldl retire m) (xs.foldl expireOne m') := by
  induction xs generalizing m m' with
  | nil => exact h
  | cons x xs ih =>
    refine ih ?_
    have hpre : SameRecord m { m' with
          live := m'.live.erase x.learnerId
          expired := m'.expired.insert x.learnerId () } := { h with }
    obtain ⟨h1, h2, h3, h4⟩ := hpre.retire x
    exact ⟨h1, h2, h3, h4⟩

section

variable (m : Membership)

theorem admit_sameRecord (member : Member) (now : Nat) :
    SameRecord ((m.superseded member).foldl retire m) (m.admitMember member now).2 := by
  unfold admitMember superseded
  split
  · exact .refl m
  split
  · exact .refl m
  cases hl : m.live.find member.learnerId with
  | none => exact ⟨rfl, rfl, rfl, rfl⟩
  | some l =>
    have hpre : SameRecord m { m with
          expired := m.expired.erase member.learnerId
          live := m.live.insert member.learnerId
            ⟨member.generation, now, m.expired.contains member.learnerId,
              none⟩ } := ⟨rfl, rfl, rfl, rfl⟩
    obtain ⟨h1, h2, h3, h4⟩ := hpre.retire ⟨member.learnerId, l.generation⟩
    exact ⟨h1, h2, h3, h4⟩

theorem depart_sameRecord (member : Member) : SameRecord (m.retire member) (m.depart member) := by
  unfold depart
  split
  · have hpre : SameRecord m (bump { m with live := m.live.erase member.learnerId }) :=
      ⟨rfl, rfl, rfl, rfl⟩
    exact hpre.retire member
  · exact .refl _

theorem recordCatchUp_sameRecord (member : Member) (versions : List Nat) :
    SameRecord m (m.recordCatchUp member versions) := by
  unfold recordCatchUp
  split
  · split
    · exact ⟨rfl, rfl, rfl, rfl⟩
    · exact .refl m
  · exact .refl m

theorem renew_sameRecord (member : Member) (now : Nat) : SameRecord m (m.renew member now).2 := by
  unfold renew
  split
  · split
    · exact ⟨rfl, rfl, rfl, rfl⟩
    · exact .refl m
  · exact .refl m

/-- Every operation of a running membership retires the generations it
ends, and touches the record in no other way; the epoch does not go back. -/
theorem apply_retired (op : Op) (h : op ≠ .restart) :
    (m.apply op).retired = ((op.ends m).foldl retire m).retired
      ∧ m.syncerEpoch ≤ (m.apply op).syncerEpoch := by
  have hretired : ∀ (xs : List Member) {m' : Membership}, SameRecord (xs.foldl retire m) m' →
      m'.retired = (xs.foldl retire m).retired ∧ m.syncerEpoch ≤ m'.syncerEpoch := by
    intro xs m' hs
    have hepoch := (foldl_retire_frame xs m).2.2.2.2
    exact ⟨hs.retired, (hs.syncerEpoch.trans hepoch).ge⟩
  cases op with
  | admitMember member now => exact hretired _ (admit_sameRecord m member now)
  | depart member => exact hretired [member] (depart_sameRecord m member)
  | expire now => exact hretired _ (sameRecord_foldl_expireOne (m.gone now) (.refl m))
  | renew member now => exact hretired [] (renew_sameRecord m member now)
  | recordCatchUp member versions => exact hretired [] (recordCatchUp_sameRecord m member versions)
  | raiseSyncerEpoch epoch =>
    dsimp only [apply, raiseSyncerEpoch]
    split
    · next hgt => exact ⟨rfl, le_of_lt hgt⟩
    · exact ⟨rfl, le_rfl⟩
  | restart => exact absurd rfl h

end

/-- An island has a record only once something was put on it. -/
def RecordOk (m : Membership) : Prop :=
  ∀ id f, m.retired.find id = some f → f.Ok retiredPerIsland ∧ f.order ≠ []

/-- The standing facts of a membership and the history of its
retirements. -/
structure WorldOk (w : World) : Prop where
  record : RecordOk w.m
  /-- The record is the end of the history. -/
  log : ∀ id, (w.m.fence id).order = (w.log id).rtake retiredPerIsland
  /-- The one id that is never admitted is neither live nor retired. -/
  live : ∀ id, w.m.live.contains id = true → id.val ≠ 4294967295
  ids : ∀ id, w.m.retired.contains id = true → id.val ≠ 4294967295

variable {w : World}

theorem RecordOk.fence (h : RecordOk m) (id : U32) : (m.fence id).Ok retiredPerIsland := by
  unfold Membership.fence
  cases hf : m.retired.find id with
  | none => exact ok_empty _
  | some f => exact (h id f hf).1

theorem WorldOk.fence (h : WorldOk w) (id : U32) :
    (w.m.fence id).Ok retiredPerIsland := h.record.fence id

theorem worldOk_start : WorldOk (startWorld cfg idLimit) := by
  refine ⟨?_, ?_, ?_, ?_⟩
  · intro id f hf
    cases hf
  · intro id
    exact (rtake_nil _).symm
  all_goals
    intro id hid
    cases hid

theorem RecordOk.retire (h : RecordOk m) (x : Member) : RecordOk (m.retire x) := by
  intro id f hf
  rw [find_retired_retire] at hf
  split at hf
  · have hok := h.fence id
    obtain rfl := Option.some.inj hf
    refine ⟨ok_add hok, fun hnil => ?_⟩
    have hin := ((ok_add hok).same x.generation).1 (contains_add_self (by decide) hok x.generation)
    rw [hnil] at hin
    cases hin
  · exact h id f hf

theorem RecordOk.foldl_retire (h : RecordOk m) (xs : List Member) :
    RecordOk (xs.foldl Membership.retire m) := by
  induction xs generalizing m with
  | nil => exact h
  | cons x xs ih => exact ih (h.retire x)

/-- The record and the history go together through retirements of distinct
islands. `m` is the membership before all of them. -/
theorem order_foldl_retire (m : Membership) (hnd : (xs.map learnerId).Nodup) :
    ∀ {m' : Membership} {log : U32 → List U64}, RecordOk m' →
      (∀ x ∈ xs, m'.isRetired x = m.isRetired x) →
      (∀ id, (m'.fence id).order = (log id).rtake retiredPerIsland) → ∀ id,
      ((xs.foldl retire m').fence id).order
        = (xs.foldl (note m) log id).rtake retiredPerIsland := by
  induction xs with
  | nil => exact fun _ _ hlog => hlog
  | cons x xs ih =>
    intro m' log hrec hsame hlog
    obtain ⟨hx, hnd⟩ := nodup_cons.1 hnd
    obtain ⟨hsame, hrest⟩ := forall_mem_cons.1 hsame
    refine ih hnd (hrec.retire x) (fun y hy => ?_) fun id => ?_
    · -- another island's fence is left alone
      have hne : y.learnerId ≠ x.learnerId := fun he => hx (mem_map.2 ⟨y, hy, he⟩)
      rw [← hrest y hy]
      unfold isRetired
      rw [fence_retire, if_neg hne]
    · rw [fence_retire]
      unfold note
      rw [← hsame]
      by_cases hid : id = x.learnerId
      · subst hid
        rw [if_pos rfl]
        cases hc : m'.isRetired x with
        | true =>
          rw [add_of_contains hc, if_pos rfl]
          exact hlog _
        | false =>
          rw [(add_new (hrec.fence _) hc).1, if_neg Bool.false_ne_true,
            Function.update_self, hlog, rtake_rtake_append]
      · rw [if_neg hid, hlog]
        split
        · rfl
        · rw [Function.update_of_ne hid]

theorem mem_foldl_note {x : Member} : ∀ {log : U32 → List U64},
    (m.isRetired x = true → x.generation ∈ log x.learnerId) →
    x ∈ xs ∨ x.generation ∈ log x.learnerId → x.generation ∈ xs.foldl (note m) log x.learnerId := by
  induction xs with
  | nil => exact fun _ h => h.resolve_left not_mem_nil
  | cons y xs ih =>
    intro log hret h
    have hkeep : x.generation ∈ log x.learnerId → x.generation ∈ note m log y x.learnerId := by
      intro hmem
      unfold note
      split
      · exact hmem
      by_cases hid : x.learnerId = y.learnerId
      · rw [← hid, Function.update_self]
        exact mem_append_left _ hmem
      · rwa [Function.update_of_ne hid]
    refine ih (fun hr => hkeep (hret hr)) ?_
    rcases h with h | h
    · rcases mem_cons.1 h with rfl | h
      · refine .inr ?_
        by_cases hr : m.isRetired x = true
        · exact hkeep (hret hr)
        · rw [note, if_neg hr, Function.update_self]
          exact mem_append_cons_self
      · exact .inl h
    · exact .inr (hkeep h)

def islandMembers (e : U32 × Fence U64) : List Member :=
  e.2.order.map fun generation => ⟨e.1, generation⟩

theorem reads_island {e : U32 × Fence U64} (h : e.2.order.length ≤ retiredPerIsland) :
    Reads readIsland (encodeIsland e) (islandMembers e) := by
  have hid : Reads (word truncated 4) (le 4 e.1.val) e.1.val := Reads.word truncated e.1.isLt
  have hcount : Reads (word truncated 4) (le 4 e.2.order.length) e.2.order.length := by
    refine Reads.word truncated (lt_of_le_of_lt h ?_)
    decide
  have hgen : Reads (many (word truncated 8) e.2.order.length)
      (e.2.order.flatMap fun g => le 8 g.val) (e.2.order.map fun g => g.val) :=
    Reads.many fun g _ => Reads.word truncated g.isLt
  have hmembers : (e.2.order.map fun g => g.val).map
      (fun g => (⟨Fin.ofNat _ e.1.val, Fin.ofNat _ g⟩ : Member)) = islandMembers e := by
    rw [map_map]
    refine map_congr_left fun g _ => ?_
    show (⟨Fin.ofNat _ e.1.val, Fin.ofNat _ g.val⟩ : Member) = ⟨e.1, g⟩
    rw [Fin.ofNat_eq_cast, Fin.ofNat_eq_cast, Fin.cast_val_eq_self, Fin.cast_val_eq_self]
  refine hid.bind (hcount.bind (Reads.bind_nil (Reads.ensure _ h) ?_))
  have hend := hgen.bind (f := fun generations => (pure (generations.map
    fun g => (⟨Fin.ofNat _ e.1.val, Fin.ofNat _ g⟩ : Member)) :
      Reader (List Member))) (Reads.pure _)
  rw [append_nil, hmembers] at hend
  exact hend

theorem readRecord_head : readRecord m.encodePersisted
      = (many readIsland (m.retired.size % 256 ^ 4) >>= fun retired => do
          let left ← rest
          ensure (left = [])
            s!"membership record has {left.length} trailing bytes"
          pure (m.syncerEpoch.val, retired)) (m.retired.entries.flatMap encodeIsland) := by
  have hmagic : Reads (Reader.take truncated 4) persistMagic persistMagic :=
    Reads.take truncated rfl
  have hepoch : Reads (word truncated 8) (le 8 m.syncerEpoch.val)
      m.syncerEpoch.val := Reads.word truncated m.syncerEpoch.isLt
  unfold readRecord encodePersisted
  rw [hmagic.bind_eq, Reads.bind_nil_eq (Reads.ensure _ rfl), hepoch.bind_eq,
    (Reads.word_mod truncated 4 _).bind_eq]

theorem readRecord_encode (hsize : m.retired.size < 4294967296)
    (hcount : ∀ e ∈ m.retired.entries, e.2.order.length ≤ retiredPerIsland) :
    readRecord m.encodePersisted
      = .ok ((m.syncerEpoch.val, m.retired.entries.map islandMembers), []) := by
  have hmany : Reads (many readIsland m.retired.entries.length)
      (m.retired.entries.flatMap encodeIsland) (m.retired.entries.map islandMembers) :=
    Reads.many fun e he => reads_island (hcount e he)
  have hlast := hmany []
  rw [append_nil] at hlast
  have hmod : m.retired.size % 256 ^ 4 = m.retired.size := Nat.mod_eq_of_lt hsize
  rw [readRecord_head, hmod]
  exact bind_ok hlast

theorem filter_islandMembers : (((m.retired.entries.map islandMembers).flatten.filter
      fun x => decide (x.learnerId = id)).map generation) = (m.fence id).order := by
  have key : ∀ l : List (U32 × Fence U64), l.Pairwise (fun a b => a.1 < b.1) →
      (((l.map islandMembers).flatten.filter fun x => decide (x.learnerId = id)).map generation)
        = (((l.find? fun e => decide (e.1 = id)).map Prod.snd).getD Fence.empty).order := by
    intro l
    induction l with
    | nil => intro _; rfl
    | cons e l ih =>
      intro hp
      obtain ⟨hlow, hp⟩ := pairwise_cons.1 hp
      rw [map_cons, flatten_cons, filter_append, map_append, ih hp]
      by_cases he : e.1 = id
      · have hself : ((islandMembers e).filter
            fun x => decide (x.learnerId = id)) = islandMembers e := by
          refine filter_eq_self.2 fun x hx => ?_
          obtain ⟨g, -, rfl⟩ := mem_map.1 hx
          exact decide_eq_true he
        have hnone : (l.find? fun e => decide (e.1 = id)) = none := by
          refine find?_eq_none.2 fun x hx hc => ?_
          exact absurd (of_decide_eq_true hc) (he ▸ (hlow x hx).ne')
        rw [find?_cons_of_pos (by simpa using he), hself, hnone]
        show (islandMembers e).map generation ++ [] = e.2.order
        unfold islandMembers
        rw [append_nil, map_map]
        exact map_id _
      · have hnone : ((islandMembers e).filter fun x => decide (x.learnerId = id)) = [] := by
          refine filter_eq_nil_iff.2 fun x hx hc => ?_
          obtain ⟨g, -, rfl⟩ := mem_map.1 hx
          exact he (of_decide_eq_true hc)
        rw [find?_cons_of_neg (by simpa using he), hnone]
        rfl
  exact key m.retired.entries m.retired.sorted

theorem size_retired_lt (hids : ∀ id, m.retired.contains id = true → id.val ≠ 4294967295) :
    m.retired.size < 4294967296 := by
  have hmax : (4294967295 : U32) ∉ m.retired.keys := by
    intro hmem
    exact hids _ ((contains_iff _ _).2 ((mem_keys_iff _ _).1 hmem)) rfl
  have hnd : ((4294967295 : U32) :: m.retired.keys).Nodup :=
    nodup_cons.2 ⟨hmax, m.retired.nodup_keys⟩
  have hcard := hnd.length_le_card
  rw [Fintype.card_fin, length_cons] at hcard
  have hkeys : m.retired.keys.length = m.retired.size := length_map _
  omega

theorem raise_new (cfg : MembershipConfig) (idLimit : U32) (epoch : U64) :
    ((new cfg idLimit).raiseSyncerEpoch epoch).cfg = cfg
      ∧ ((new cfg idLimit).raiseSyncerEpoch epoch).idLimit = idLimit
      ∧ ((new cfg idLimit).raiseSyncerEpoch epoch).retired = .empty
      ∧ ((new cfg idLimit).raiseSyncerEpoch epoch).live = .empty
      ∧ ((new cfg idLimit).raiseSyncerEpoch epoch).syncerEpoch = epoch := by
  unfold raiseSyncerEpoch
  split
  · exact ⟨rfl, rfl, rfl, rfl, rfl⟩
  · next hpos =>
    have hzero : epoch = 0 := Fin.le_zero_iff.1 (Fin.not_lt.1 hpos)
    exact ⟨rfl, rfl, rfl, rfl, hzero.symm⟩

theorem restart_spec (hrec : RecordOk m)
    (hids : ∀ id, m.retired.contains id = true → id.val ≠ 4294967295) :
    ∃ m', m.restart = .ok m' ∧ SameRecord m m' ∧ m'.live = .empty := by
  have hcount : ∀ e ∈ m.retired.entries, e.2.order.length ≤ retiredPerIsland := fun e he =>
    (hrec e.1 e.2 ((mem_entries_iff _ _ _).1 he)).1.bound
  unfold restart restorePersisted
  rw [readRecord_encode (size_retired_lt hids) hcount]
  refine ⟨_, rfl, ?_⟩
  rw [Fin.ofNat_eq_cast, Fin.cast_val_eq_self]
  obtain ⟨hcfg, hlimit, hretired, hlive, hepoch⟩ := raise_new m.cfg m.idLimit m.syncerEpoch
  generalize (new m.cfg m.idLimit).raiseSyncerEpoch m.syncerEpoch = m0
    at hcfg hlimit hretired hlive hepoch ⊢
  obtain ⟨h1, h2, h3, -, h5⟩ := foldl_retire_frame (m.retired.entries.map islandMembers).flatten m0
  refine ⟨⟨h1.trans hcfg, h2.trans hlimit, ext_find fun id => ?_, h5.trans hepoch⟩, h3.trans hlive⟩
  cases hf : m.retired.find id with
  | none =>
    rw [find_retired_foldl_retire, hretired]
    · rfl
    · intro x hx hid
      obtain ⟨l, hl, hx⟩ := mem_flatten.1 hx
      obtain ⟨e, he, rfl⟩ := mem_map.1 hl
      obtain ⟨g, -, rfl⟩ := mem_map.1 hx
      have hfind : m.retired.find e.1 = some e.2 := (mem_entries_iff _ _ _).1 he
      have hid' : e.1 = id := hid
      rw [hid', hf] at hfind
      cases hfind
  | some f =>
    obtain ⟨hok, hne⟩ := hrec id f hf
    have hfence : m.fence id = f := by
      unfold Membership.fence
      rw [hf]
      rfl
    have hfresh : m0.fence id = .empty := by
      unfold Membership.fence
      rw [hretired]
      rfl
    -- the restored fence has the persisted record
    have hback := fence_foldl_retire (m.retired.entries.map islandMembers).flatten m0 id
    rw [filter_islandMembers, hfence, hfresh] at hback
    have hempty : ((Fence.empty : Fence U64).addAll retiredPerIsland f.order) = f := by
      refine Fence.Ok.ext (ok_addAll (ok_empty _) _) hok ?_
      exact order_addAll_empty hok.nodup hok.bound
    have hback' := hback.trans hempty
    unfold Membership.fence at hback'
    cases hr : ((m.retired.entries.map islandMembers).flatten.foldl retire m0).retired.find id with
    | none =>
      rw [hr] at hback'
      exact absurd (congrArg order hback').symm hne
    | some g =>
      rw [hr] at hback'
      exact congrArg some hback'

variable {op : Op}

theorem contains_live_apply (hop : op ≠ .restart) (h : (m.apply op).live.contains id = true) :
    m.live.contains id = true ∨ id < m.idLimit := by
  have hinsert : ∀ (x : U32) (l : LiveMember), m.live.contains x = true →
      (m.live.insert x l).contains id = true → m.live.contains id = true := by
    intro x l hx hid
    obtain rfl | hid := contains_insert.1 hid
    · exact hx
    · exact hid
  cases op with
  | admitMember member now =>
    dsimp only [apply, admitMember] at h
    split at h
    · exact .inl h
    next hlt =>
    split at h
    · exact .inl h
    have hlive : (m.live.insert member.learnerId
        ⟨member.generation, now, m.expired.contains member.learnerId,
          none⟩).contains id = true := by
      cases hl : m.live.find member.learnerId <;> rw [hl] at h <;> exact h
    obtain rfl | hlive := contains_insert.1 hlive
    · exact .inr (lt_of_not_ge hlt)
    · exact .inl hlive
  | depart member =>
    dsimp only [apply, depart] at h
    split at h
    · exact .inl ((contains_erase.1 h).2)
    · exact .inl h
  | expire now =>
    have key : ∀ (xs : List Member) (m : Membership),
        (xs.foldl expireOne m).live.contains id = true → m.live.contains id = true := by
      intro xs
      induction xs with
      | nil => intro m h; exact h
      | cons x xs ih =>
        intro m h
        exact (contains_erase.1 (ih (m.expireOne x) h)).2
    exact .inl (key (m.gone now) m h)
  | renew member now =>
    dsimp only [apply, renew] at h
    split at h
    · next l hl =>
      split at h
      · exact .inl (hinsert _ _ ((contains_iff _ _).2 ⟨l, hl⟩) h)
      · exact .inl h
    · exact .inl h
  | recordCatchUp member versions =>
    dsimp only [apply, recordCatchUp] at h
    split at h
    · next l hl =>
      split at h
      · exact .inl (hinsert _ _ ((contains_iff _ _).2 ⟨l, hl⟩) h)
      · exact .inl h
    · exact .inl h
  | raiseSyncerEpoch epoch =>
    dsimp only [apply, raiseSyncerEpoch] at h
    split at h <;> exact .inl h
  | restart => exact absurd rfl hop

variable {x : Member}

theorem mem_gone (h : x ∈ m.gone now) : ∃ l, m.live.find x.learnerId = some l
      ∧ l.generation = x.generation := by
  unfold gone at h
  split at h
  · cases h
  · obtain ⟨e, he, rfl⟩ := mem_map.1 h
    exact ⟨e.2, (mem_entries_iff _ _ _).1 (mem_filter.1 he).1, rfl⟩

theorem nodup_ends (m : Membership) : ((op.ends m).map learnerId).Nodup := by
  cases op with
  | admitMember member now =>
    dsimp only [Op.ends, superseded]
    split
    · exact nodup_nil
    · split
      · exact nodup_nil
      · split
        · exact nodup_singleton _
        · exact nodup_nil
  | depart member => exact nodup_singleton _
  | expire now =>
    dsimp only [Op.ends, gone]
    split
    · exact nodup_nil
    · rw [map_map]
      exact m.live.nodup_keys.sublist (List.Sublist.map _ filter_sublist)
  | renew | recordCatchUp | raiseSyncerEpoch | restart => exact nodup_nil

theorem mem_ends (h : x ∈ op.ends m) : m.live.contains x.learnerId = true ∨ op = .depart x := by
  cases op with
  | admitMember member now =>
    dsimp only [Op.ends, superseded] at h
    split at h
    · cases h
    split at h
    · cases h
    · split at h
      · next l hl =>
        obtain rfl := mem_singleton.1 h
        exact .inl ((contains_iff _ _).2 ⟨l, hl⟩)
      · cases h
  | depart member =>
    obtain rfl := mem_singleton.1 h
    exact .inr rfl
  | expire now =>
    obtain ⟨l, hl, -⟩ := mem_gone h
    exact .inl ((contains_iff _ _).2 ⟨l, hl⟩)
  | renew | recordCatchUp | raiseSyncerEpoch | restart => cases h

theorem contains_retired_foldl (h : (xs.foldl retire m).retired.contains id = true) :
    m.retired.contains id = true ∨ ∃ x ∈ xs, x.learnerId = id := by
  by_cases hx : ∃ x ∈ xs, x.learnerId = id
  · exact .inr hx
  · refine .inl ?_
    have hne : ∀ x ∈ xs, x.learnerId ≠ id := fun x hmem he => hx ⟨x, hmem, he⟩
    unfold SortedMap.contains at h
    rwa [find_retired_foldl_retire m hne] at h

theorem worldOk_apply (h : WorldOk w) (hop : op.Sound) : WorldOk (w.apply op) := by
  by_cases hre : op = .restart
  · subst hre
    obtain ⟨m', hm', hsame, hlive⟩ := restart_spec h.record h.ids
    have hw : w.apply .restart = ⟨m', w.log⟩ := by
      show World.mk (w.m.apply .restart) _ = _
      unfold Membership.apply
      rw [hm']
      rfl
    rw [hw]
    refine ⟨?_, ?_, ?_, ?_⟩
    · show ∀ id f, m'.retired.find id = some f → _
      rw [hsame.retired]
      exact h.record
    · intro id
      show (m'.fence id).order = _
      unfold Membership.fence
      rw [hsame.retired]
      exact h.log id
    · intro id hid
      have hid' : m'.live.contains id = true := hid
      rw [hlive] at hid'
      cases hid'
    · show ∀ id, m'.retired.contains id = true → _
      rw [hsame.retired]
      exact h.ids
  · have hret := (apply_retired w.m op hre).1
    have hfence : ∀ id, (w.m.apply op).fence id = ((op.ends w.m).foldl retire w.m).fence id := by
      intro id
      unfold Membership.fence
      rw [hret]
    refine ⟨?_, ?_, ?_, ?_⟩
    · intro id f hf
      have hf' : (w.m.apply op).retired.find id = some f := hf
      rw [hret] at hf'
      exact h.record.foldl_retire _ id f hf'
    · intro id
      show ((w.m.apply op).fence id).order = _
      rw [hfence]
      exact order_foldl_retire w.m (nodup_ends w.m) h.record (fun _ _ => rfl) h.log id
    · intro id hid
      rcases contains_live_apply hre hid with hold | hnew
      · exact h.live id hold
      · have hlt : id.val < w.m.idLimit.val := hnew
        omega
    · intro id hid
      have hid' : (w.m.apply op).retired.contains id = true := hid
      rw [hret] at hid'
      rcases contains_retired_foldl hid' with hold | ⟨x, hx, rfl⟩
      · exact h.ids id hold
      · rcases mem_ends hx with hlive | rfl
        · exact h.live _ hlive
        · exact hop

theorem worldOk_reachable (h : (runs cfg idLimit).Reachable w) : WorldOk w := by
  refine System.invariant (P := WorldOk) ?_ ?_ h
  · intro w hw
    rw [hw]
    exact worldOk_start
  · rintro w w' _ hok ⟨op, hop, rfl⟩
    exact worldOk_apply hok hop

theorem admit_refused {e : AdmitError} (h : m.admitMember x now = (.error e, m')) : m' = m := by
  unfold admitMember at h
  split at h
  · exact (Prod.mk.inj h).2.symm
  · split at h
    · exact (Prod.mk.inj h).2.symm
    · cases h

theorem admit_of_retired (h : m.isRetired x = true) : ∃ e, m.admitMember x now = (.error e, m) := by
  unfold admitMember
  split
  · exact ⟨_, rfl⟩
  · rw [h]
    exact ⟨_, rfl⟩

theorem isLive_unique {a b : Member} (ha : m.isLive a = true) (hb : m.isLive b = true)
    (hid : a.learnerId = b.learnerId) : a = b := by
  unfold isLive at ha hb
  rw [hid] at ha
  cases hl : m.live.find b.learnerId with
  | none =>
    rw [hl] at ha
    cases ha
  | some l =>
    rw [hl] at ha hb
    have hga : l.generation = a.generation := of_decide_eq_true ha
    have hgb : l.generation = b.generation := of_decide_eq_true hb
    cases a
    cases b
    simp only at hid hga hgb
    rw [hid, ← hga, hgb]

theorem WorldOk.isRetired (h : WorldOk w)
    {pre post : List U64} (hlog : w.log x.learnerId = pre ++ x.generation :: post)
    (hfew : post.length < retiredPerIsland) : w.m.isRetired x = true := by
  refine ((h.fence x.learnerId).same x.generation).2 ?_
  rw [h.log, hlog]
  exact mem_rtake_append_cons post x.generation hfew

theorem WorldOk.ended (h : WorldOk w) (hx : x ∈ op.ends w.m) : ∃ pre post,
      (w.apply op).log x.learnerId = pre ++ x.generation :: post := by
  refine append_of_mem (mem_foldl_note (fun hr => ?_) (.inl hx))
  have hmem := ((h.fence x.learnerId).same x.generation).1 hr
  rw [h.log] at hmem
  exact mem_of_mem_drop hmem

theorem WorldOk.epoch (h : WorldOk w) (op : Op) : w.m.syncerEpoch ≤ (w.m.apply op).syncerEpoch := by
  by_cases hre : op = .restart
  · subst hre
    obtain ⟨m', hm', hsame, -⟩ := restart_spec h.record h.ids
    unfold Membership.apply
    rw [hm']
    exact hsame.syncerEpoch.ge
  · exact (apply_retired w.m op hre).2

theorem WorldOk.restarts (h : WorldOk w) : ∃ m', w.m.restart = .ok m'
      ∧ m'.encodePersisted = w.m.encodePersisted := by
  obtain ⟨m', hm', hsame, -⟩ := restart_spec h.record h.ids
  refine ⟨m', hm', ?_⟩
  unfold encodePersisted
  rw [hsame.retired, hsame.syncerEpoch]

/-- What the membership promises about the generations of an island. -/
structure Fencing (w : World) : Prop where
  /-- At most one generation per island is live. -/
  oneLive : ∀ a b : Member, w.m.isLive a = true → w.m.isLive b = true →
    a.learnerId = b.learnerId → a = b
  /-- A generation that is superseded, departs or expires enters the
  history of its island. -/
  ended : ∀ (op : Op) (x : Member), x ∈ op.ends w.m → ∃ pre post,
    (w.apply op).log x.learnerId = pre ++ x.generation :: post
  /-- A generation in the history is refused while fewer than
  `RETIRED_PER_ISLAND` later ones were retired. -/
  fenced : ∀ (x : Member) (pre post : List U64), w.log x.learnerId = pre ++ x.generation :: post →
    post.length < retiredPerIsland → ∀ now, ∃ e, w.m.admitMember x now = (.error e, w.m)
  /-- A refused admission changes nothing. -/
  refused : ∀ (x : Member) (now : Nat) (e : AdmitError) (m' : Membership),
    w.m.admitMember x now = (.error e, m') → m' = w.m
  /-- Queue and set of an island hold the same generations, once each. -/
  same : ∀ id, (w.m.fence id).order.Nodup
    ∧ ∀ g, (w.m.fence id).set.contains g = true ↔ g ∈ (w.m.fence id).order
  /-- The syncer epoch never decreases. -/
  epoch : ∀ op : Op, w.m.syncerEpoch ≤ (w.m.apply op).syncerEpoch
  /-- A restart succeeds, and its record is the same bytes. -/
  restarts : ∃ m', w.m.restart = .ok m' ∧ m'.encodePersisted = w.m.encodePersisted

/-- MEMBERSHIP FENCING, in every run and across restarts. -/
theorem membership_fenced {cfg : MembershipConfig} {idLimit : U32} {w : World}
    (hr : (runs cfg idLimit).Reachable w) : Fencing w := by
  have h := worldOk_reachable hr
  refine ⟨fun _ _ => isLive_unique, fun _ _ => h.ended, ?_, ?_, ?_, h.epoch, h.restarts⟩
  · intro x pre post hlog hfew now
    exact admit_of_retired (h.isRetired hlog hfew)
  · intro x now e m' hadm
    exact admit_refused hadm
  · intro id
    exact ⟨(h.fence id).nodup, (h.fence id).same⟩

def sampleOps : List Op := [.admitMember ⟨0, 1⟩ 0, .admitMember ⟨0, 2⟩ 1, .depart ⟨0, 2⟩, .restart]

def sampleWorld : World := (startWorld .default 4).after sampleOps

theorem sampleWorld_reachable : (runs .default 4).Reachable sampleWorld := by
  have hstart : (runs .default 4).Reachable (startWorld .default 4) := .init rfl
  have hdeparts : Op.Sound (.depart ⟨0, 2⟩) := by
    show (0 : U32).val ≠ 4294967295
    decide
  have htwo := (hstart.step ⟨.admitMember ⟨0, 1⟩ 0, trivial, rfl⟩).step
    ⟨.admitMember ⟨0, 2⟩ 1, trivial, rfl⟩
  exact (htwo.step ⟨_, hdeparts, rfl⟩).step ⟨.restart, trivial, rfl⟩

theorem membership_fenced_sample :
    ∃ e, sampleWorld.m.admitMember ⟨0, 1⟩ 9 = (.error e, sampleWorld.m) :=
  (membership_fenced sampleWorld_reachable).fenced ⟨0, 1⟩ [] [2] rfl (by decide) 9

/-- The departure of the first `n` ids. -/
def departures (n : Nat) : List Op := (List.range n).map fun i => .depart ⟨Fin.ofNat _ i, 0⟩

theorem size_departures (n : Nat) : n ≤ 4294967296 →
    ((departures n).foldl apply (new .default 4)).retired.size = n ∧ ∀ id : U32, n ≤ id.val →
        ((departures n).foldl apply (new .default 4)).retired.find id = none := by
  induction n with
  | zero => intro _; exact ⟨rfl, fun _ _ => rfl⟩
  | succ n ih =>
    intro hn
    obtain ⟨hsize, hnone⟩ := ih (by omega)
    have hval : (Fin.ofNat 4294967296 n).val = n := Nat.mod_eq_of_lt (by omega)
    have hlast : (departures (n + 1)).foldl apply (new .default 4)
        = ((departures n).foldl apply (new .default 4)).depart ⟨Fin.ofNat _ n, 0⟩ := by
      unfold departures
      rw [range_succ, map_append, foldl_append]
      rfl
    rw [hlast]
    generalize (departures n).foldl apply (new .default 4) = m at hsize hnone ⊢
    have hret := (depart_sameRecord m ⟨Fin.ofNat _ n, 0⟩).retired
    have hnew := hnone (Fin.ofNat _ n) hval.ge
    rw [hret]
    refine ⟨?_, fun id hid => ?_⟩
    · exact (entries_insert_new _ _ hnew).length_eq.trans (congrArg (· + 1) hsize)
    · rw [find_retired_retire, if_neg]
      · exact hnone id (by omega)
      · intro heq
        rw [heq, hval] at hid
        omega

/-- A record of 2³² islands says it has none, and is refused for its
length. -/
theorem restart_error (hsize : m.retired.size = 4294967296) :
    ∃ message, m.restart = .error message := by
  have hzero : m.retired.size % 256 ^ 4 = 0 := by
    rw [hsize]
    decide
  have hbody : m.retired.entries.flatMap encodeIsland ≠ [] := by
    have hpos : 0 < m.retired.entries.length := Nat.lt_of_lt_of_eq (by decide) hsize.symm
    obtain ⟨e, he⟩ := exists_mem_of_length_pos hpos
    intro hnil
    have hlen := congrArg List.length (flatMap_eq_nil_iff.1 hnil e he)
    simp [encodeIsland] at hlen
  unfold restart restorePersisted
  rw [readRecord_head, hzero]
  generalize m.retired.entries.flatMap encodeIsland = body at hbody ⊢
  have hnone : many readIsland 0 body = .ok ([], body) := rfl
  have hleft : rest body = .ok (body, body) := rfl
  have hfail : ensure (body = [])
      s!"membership record has {body.length} trailing bytes" body = .error _ :=
    if_neg hbody
  rw [bind_ok hnone, bind_ok hleft, bind_error hfail]
  exact ⟨_, rfl⟩

/-- The departures of all 2³² ids leave a record that cannot be restored. -/
theorem crowded_record_lost : ∃ (ops : List Op) (message : String),
    (ops.foldl apply (new .default 4)).restart = .error message := by
  obtain ⟨hsize, -⟩ := size_departures 4294967296 le_rfl
  obtain ⟨message, hmessage⟩ := restart_error hsize
  exact ⟨_, message, hmessage⟩

end Yeto.Membership
