/-
What other holders' operations leave alone.

`Spares h d d'`: the step took `h` off the live map, or left `h`'s stored
answer and all of `h`'s blocks as they were. Every operation spares every live
holder, except a new claim or report of the holder itself. So the ranges of a
stored GRANT stay unreported (`StoredOk`), and no answer to a claim, new or
resent, names a position settled before (`settled_once`).
-/
import Yeto.Dispense.Proofs.Runs

namespace Yeto.Dispense

open Lib Dispenser SortedMap Option Multiset Ledger

variable {h : Holder} {d d' : Dispenser} {a b c : Dispenser} {log : List DispenseEvent}
  {id now seq wanted : Nat} {o : Op} {data : DataDecl} {list : List Nat}

theorem SameBlocks.trans (h1 : SameBlocks h a b) (h2 : SameBlocks h b c) : SameBlocks h a c :=
  fun id => (h2 id).trans (h1 id)

theorem SameBlocks.find (hs : SameBlocks h d d') {b : Block} (hf : d.blocks.find id = some b)
    (hb : b.holder = h) : d'.blocks.find id = some b := by
  have hid := hs id
  rw [hf, filter_some, if_pos (decide_eq_true hb)] at hid
  exact (filter_eq_some_iff.1 hid).1

structure Spares (h : Holder) (d d' : Dispenser) : Prop where
  gone : d.live.find h = none → d'.live.find h = none
  kept : ∀ l, d.live.find h = some l → d'.live.find h = none
    ∨ ((∃ l', d'.live.find h = some l' ∧ l'.last = l.last) ∧ SameBlocks h d d')

theorem Spares.refl (h : Holder) (d : Dispenser) : Spares h d d :=
  ⟨id, fun l hl => .inr ⟨⟨l, hl, rfl⟩, SameBlocks.refl h d⟩⟩

theorem Spares.trans (h1 : Spares h a b) (h2 : Spares h b c) : Spares h a c := by
  refine ⟨fun hg => h2.gone (h1.gone hg), fun l hl => ?_⟩
  rcases h1.kept l hl with hn | ⟨⟨l', hl', e1⟩, s1⟩
  · exact .inl (h2.gone hn)
  · rcases h2.kept l' hl' with hn | ⟨⟨l'', hl'', e2⟩, s2⟩
    · exact .inl hn
    · exact .inr ⟨⟨l'', hl'', e2.trans e1⟩, s1.trans s2⟩

theorem spares_of_eq (hl : d'.live.find h = d.live.find h) (hb : d'.blocks = d.blocks) :
    Spares h d d' := by
  refine ⟨fun hg => hl.trans hg, fun l hf => .inr ⟨⟨l, hl.trans hf, rfl⟩, ?_⟩⟩
  intro id
  rw [hb]

theorem spares_reclaim (hb : Books d) {k : Holder} {reason : ReclaimReason} :
    Spares h d (d.reclaim k reason).2 := by
  have hfind := find_live_reclaim d k reason h
  by_cases hk : h = k
  · rw [if_pos hk] at hfind
    exact ⟨fun _ => hfind, fun l _ => .inl hfind⟩
  rw [if_neg hk] at hfind
  refine ⟨fun hg => hfind.trans hg, fun l hl => .inr ⟨⟨l, hfind.trans hl, rfl⟩, fun id => ?_⟩⟩
  cases hlive : d.live.find k with
  | none => rw [reclaim_none reason hlive]
  | some live =>
    rw [reclaim_some reason hlive]
    show ((takeBlocks live.blocks.keys d.blocks).2.find id).filter _ = _
    rw [find_takeBlocks]
    split
    · next hid =>
      -- a block taken from `k` is not one of `h`'s
      have hc : live.blocks.contains id = true := (contains_iff _ _).2 ((mem_keys_iff _ _).1 hid)
      obtain ⟨b, hf, hh⟩ := hb.owned k live id hlive hc
      have hne : ¬ b.holder = h := fun he => hk (he.symm.trans hh)
      rw [hf, filter_some, if_neg (by simpa using hne)]
      rfl
    · rfl

theorem spares_reclaims (hb : Books d) {es : List (Holder × ReclaimReason)} :
    Spares h d (reclaimAll es d) := by
  refine (reclaims_keeps (Q := fun d' => Books d' ∧ Spares h d d') ?_ es ⟨hb, Spares.refl h d⟩).2
  intro d' k reason hd
  exact ⟨hd.1.reclaim k reason, hd.2.trans (spares_reclaim hd.1)⟩

theorem spares_expire (hb : Books d) (h : Holder) (now : Nat) : Spares h d (d.expire now).2 := by
  have hm := hb.with_members (Members.ok_expire hb.members now)
  have h1 : Spares h d { d with members := (d.members.expire now).2 } := spares_of_eq rfl rfl
  obtain ⟨es, -, heq⟩ := expire_eq d now
  rw [heq]
  exact h1.trans (spares_reclaims hm)

variable {l : Live} {holder : Holder}

/-- Opening keeps a live holder's stored answer: its own reconnect does
not touch it, another island's join at most reclaims. -/
theorem spares_enroll (hb : Books d) (hl : d.live.find h = some l)
    (hr : d.members.isRetired holder = false) : Spares h d (d.enroll holder data list now).2 := by
  dsimp only [enroll]
  split
  · refine ⟨fun hg => ?_, fun l hl => .inr ⟨?_, fun id => rfl⟩⟩
    · rw [hl] at hg
      cases hg
    · rw [find_update]
      by_cases hh : h = holder
      · subst hh
        rw [if_pos rfl, hl]
        exact ⟨_, rfl, rfl⟩
      · rw [if_neg hh]
        exact ⟨l, hl, rfl⟩
  · next hc =>
    split
    · exact Spares.refl h d
    have hne : h ≠ holder := by
      intro he
      subst he
      exact hc ((contains_iff _ _).2 ⟨l, hl⟩)
    have hj := hb.with_members (Members.ok_join hb.members now hr)
    have h1 : Spares h d { d with members := (d.members.join holder now).2 } := spares_of_eq rfl rfl
    rw [supersede_eq]
    refine (h1.trans (spares_reclaims hj)).trans (spares_of_eq ?_ rfl)
    exact find_insert_ne _ _ hne

theorem spares_openWith (hb : Books d) (hl : d.live.find h = some l) {accept : Option (List Nat)} :
    Spares h d (d.openWith holder data accept now).2 := by
  unfold openWith
  split
  · exact spares_of_eq rfl rfl
  next hr =>
  split
  · exact Spares.refl h d
  split
  · exact Spares.refl h d
  next hv =>
  split
  · exact Spares.refl h d
  next d' ha =>
  -- with a live holder the data is fixed already
  have hd' : d' = d := by
    rcases agreeData_ok ha with ⟨-, he⟩ | ⟨hd, -⟩
    · exact he
    · rw [(hb.nodata hd).2] at hl
      cases hl
  subst hd'
  split
  · exact Spares.refl h _
  · exact spares_enroll hb hl (by simpa using hr)

theorem spares_claimNew (hb : Books d) (hne : h ≠ holder) (hl : d.live.find holder = some l)
    (wanted : Nat) : Spares h d (d.claimNew holder wanted).2 := by
  have hg := gave_collect d l.accept wanted
  have hcollect : Spares h d (d.collect l.accept wanted).2 :=
    spares_of_eq (by rw [hg.live]) hg.blocks
  refine claimNew_cases hl wanted (Spares.refl h d) (fun _ => ?_) ?_
  · refine hcollect.trans ?_
    unfold answerEmpty
    split
    · exact spares_of_eq rfl rfl
    · split
      · refine spares_of_eq ?_ rfl
        rw [find_update, if_neg hne]
      · exact Spares.refl h _
  · refine hcollect.trans ⟨fun hg' => ?_, fun l' hl' => .inr ⟨⟨l', ?_, rfl⟩, fun id => ?_⟩⟩
    · unfold grant
      rw [find_update, if_neg hne]
      exact hg'
    · unfold grant
      rw [find_update, if_neg hne]
      exact hl'
    · -- the new id is no block of `h`, and the new block is not `h`'s
      unfold grant
      rw [find_insert]
      split
      · next hid =>
        subst hid
        have hnew : (d.collect l.accept wanted).2.blocks.find
            (d.collect l.accept wanted).2.nextBlock = none := by
          rw [hg.blocks, hg.nextBlock]
          exact hb.find_nextBlock
        rw [hnew, filter_some, if_neg (by simpa using hne.symm)]
        rfl
      · rfl

theorem spares_reportNew (d : Dispenser) (hne : h ≠ holder) (entries : List ReportEntry) :
    Spares h d (d.reportNew holder entries).2 := by
  refine reportNew_rule (Spares.refl h d) fun {_ staged d'} hst hfin => ?_
  have hown := stagedOwn_stageEntries (stagedOwn_empty d holder) hst
  refine ⟨fun hg => hfin.gone h hg, fun l hl => .inr ⟨?_, fun id => ?_⟩⟩
  · obtain ⟨l', hl', -, -, hlast, -⟩ := hfin.kept h l hl
    exact ⟨l', hl', hlast⟩
  · show (d'.blocks.find id).filter _ = _
    rw [hfin.blocks_eq, find_filter, find_overlay]
    cases hs : staged.find id with
    | none =>
      have hc : staged.contains id = false := (contains_eq_false_iff _ _).2 hs
      rw [none_or, hc]
      show ((d.blocks.find id).filter _).filter _ = _
      cases d.blocks.find id with
      | none => rfl
      | some b => simp [filter_some]
    | some b =>
      -- a staged block is the reporter's, before and after
      obtain ⟨h1, b₀, h2, h3⟩ := hown id b hs
      have hb : ¬ b.holder = h := fun he => hne (he.symm.trans h1)
      have hb₀ : ¬ b₀.holder = h := fun he => hne (he.symm.trans h3)
      have hnone : (some b₀).filter (fun b => decide (b.holder = h)) = none := by
        rw [filter_some, if_neg (by simpa using hb₀)]
      rw [some_or, h2, hnone, filter_some]
      split
      · rw [filter_some, if_neg (by simpa using hb)]
      · rfl

def Op.Requests (h : Holder) : Op → Prop
  | .claim holder _ _ _ => holder = h
  | .report holder _ _ _ => holder = h
  | _ => False

def Op.Opens : Op → Prop
  | .openWith _ _ _ _ => True
  | _ => False

theorem spares_other (hb : Books d) (ho : ¬ o.Requests h) (hopen : ¬ o.Opens) :
    Spares h d (d.apply o) := by
  have htouch : ∀ holder now, Spares h d (touched d holder now) := fun _ _ => spares_of_eq rfl rfl
  have hremember : ∀ (d : Dispenser) (holder : Holder) (seq : Nat) (a : Answer),
      h ≠ holder → Spares h d (d.remember holder seq a) := by
    intro d holder seq a hne
    refine spares_of_eq ?_ rfl
    unfold remember
    rw [find_update, if_neg hne]
  cases o with
  | openWith holder data accept now => exact absurd trivial hopen
  | claim holder seq wanted now =>
    have hne : h ≠ holder := fun he => ho he.symm
    refine (claim_case ..).after (P := Spares h d) (spares_of_eq rfl rfl) (htouch holder now)
      fun l c hl' => ?_
    have hs := spares_claimNew (hb.touched holder now) hne hl' wanted
    exact ((htouch holder now).trans hs).trans (hremember _ _ _ _ hne)
  | report holder seq entries now =>
    have hne : h ≠ holder := fun he => ho he.symm
    refine (report_case ..).after (P := Spares h d) (spares_of_eq rfl rfl) (htouch holder now)
      fun l t _ => ?_
    have hs := spares_reportNew (touched d holder now) hne entries
    exact ((htouch holder now).trans hs).trans (hremember _ _ _ _ hne)
  | heartbeat holder now =>
    exact requireLive_rule (P := Spares h d) (spares_of_eq rfl rfl) (htouch holder now)
  | expire now => exact spares_expire hb h now
  | memberJoin | memberTouch | memberRetire | memberExpire => exact spares_of_eq rfl rfl

theorem spares_apply (hb : Books d) (hl : d.live.find h = some l) (ho : ¬ o.Requests h) :
    Spares h d (d.apply o) := by
  by_cases hopen : o.Opens
  · cases o with
    | openWith holder data accept now => exact spares_openWith hb hl
    | _ => exact absurd hopen id
  · exact spares_other hb ho hopen

theorem enroll_last {out : OpenOutcome} (hn : d.live.find h = none)
    (he : d.enroll holder data list now = (.ok out, d')) (hl : d'.live.find h = some l) :
    l.last = none := by
  dsimp only [enroll] at he
  split at he
  · cases he
    rw [find_update] at hl
    by_cases hh : h = holder
    · subst hh
      rw [if_pos rfl, hn] at hl
      cases hl
    · rw [if_neg hh, hn] at hl
      cases hl
  · split at he <;> cases he
    rw [find_insert] at hl
    by_cases hh : h = holder
    · rw [if_pos hh] at hl
      cases hl
      rfl
    · rw [if_neg hh, supersede_eq, find_live_reclaims] at hl
      split at hl
      · cases hl
      · exact absurd (hn.symm.trans hl) nofun

theorem joined_last (hb : Books d) (hn : d.live.find h = none) (ho : ¬ o.Requests h)
    (hl : (d.apply o).live.find h = some l) : l.last = none := by
  by_cases hopen : o.Opens
  · cases o with
    | openWith holder data accept now =>
      have hcase := open_case d holder data accept now
      dsimp only [Dispenser.apply] at hl
      generalize d.openWith holder data accept now = r at hcase hl
      have hagree : ∀ d', Agreed d holder data d' → d'.live.find h = none := by
        intro d' ha
        rcases agreeData_ok ha.agree with ⟨-, he⟩ | ⟨-, he⟩
        · rw [he]; exact hn
        · rw [he]; exact hn
      cases hcase with
      | fenced | refused => exact absurd (hn.symm.trans hl) nofun
      | badList d' e ha _ => exact absurd ((hagree d' ha).symm.trans hl) nofun
      | full d' list e ha _ _ _ => exact absurd ((hagree d' ha).symm.trans hl) nofun
      | opened d' list out d'' ha _ he => exact enroll_last (hagree d' ha) he hl
    | _ => exact absurd hopen id
  · rw [(spares_other hb ho hopen).gone hn] at hl
    cases hl

/-- The block of a stored GRANT is still there, every granted position
unreported. -/
def StoredOk (d : Dispenser) : Prop := ∀ h l n id ranges, d.live.find h = some l →
    l.last = some (n, .claim (.grant id ranges)) → ∃ b, d.blocks.find id = some b ∧ b.holder = h
      ∧ ∀ p ∈ positions ranges, b.Holds p

variable {ranges : List (Nat × Nat)}

theorem stored_spares (hs : StoredOk d) {l' : Live} (hsp : Spares h d d')
    (hl : d.live.find h = some l) (hl' : d'.live.find h = some l') {n : Nat}
    (hlast : l'.last = some (n, .claim (.grant id ranges))) :
    ∃ b, d'.blocks.find id = some b ∧ b.holder = h ∧ ∀ p ∈ positions ranges, b.Holds p := by
  rcases hsp.kept l hl with hn | ⟨⟨l₁, hl₁, he⟩, hsame⟩
  · rw [hn] at hl'
    cases hl'
  · rw [hl₁] at hl'
    cases hl'
    obtain ⟨b, hf, hh, hp⟩ := hs h l n id ranges hl (he ▸ hlast)
    exact ⟨b, hsame.find hf hh, hh, hp⟩

theorem stored_claimNew (hb : Books d) (hc : Conserved d log) (hl : d.live.find holder = some l)
    (h : d.claimNew holder wanted = (.ok (.grant id ranges), d')) (hfit : Fits d'.streams) :
    ∃ b, d'.blocks.find id = some b ∧ b.holder = holder ∧ ∀ p ∈ positions ranges, b.Holds p := by
  by_cases hw : wanted = 0 ∨ wanted > d.cfg.maxBlock.val
  · rw [claimNew_refused holder hw] at h
    cases h
  have hw' : 0 < wanted ∧ wanted ≤ d.cfg.maxBlock.val := by omega
  obtain ⟨a, ha, hcase⟩ := claimNew_allowed holder hw'
  rw [ha] at h
  rw [acceptOf_eq hl] at hcase
  have hacc := (hb.accept holder l hl).2.2
  split at hcase
  · -- END or WAIT, not a grant
    subst hcase
    unfold answerEmpty at h
    split at h
    · cases h
    · split at h <;> cases h
  · subst hcase
    cases h
    obtain ⟨hcells, -⟩ := (collected hb hc wanted hacc hfit).opened
    refine ⟨⟨holder, openSpans (d.collect l.accept wanted).1⟩,
      find_insert_self _ _ _, rfl, fun p hp => ?_⟩
    rw [positions_range] at hp
    rw [mem_items_spans, cellsOf_spans]
    show p ∈ items (mapCells (openSpans _))
    rwa [hcells]

theorem StoredOk.apply (hs : StoredOk d) (hb : Books d) (hc : Conserved d log) (o : Op)
    (hfit : Fits (d.apply o).streams) : StoredOk (d.apply o) := by
  intro h l' n id ranges hl' hlast
  by_cases ho : o.Requests h
  · cases o with
    | claim holder seq wanted now =>
      have hh : holder = h := ho
      subst hh
      dsimp only [Dispenser.apply] at hl' hfit ⊢
      have hcase := claim_case d holder seq wanted now
      generalize d.claim holder seq wanted now = r at hcase hl' hfit ⊢
      cases hcase with
      | fenced | stale | replayed | refused => exact hs holder l' n id ranges hl' hlast
      | new l c d' _ hl _ hcl =>
        -- the answer stored is the one just given
        cases (last_remember hl').symm.trans hlast
        obtain ⟨es, -, hk⟩ := keeps_touched d holder now
        have hfit' : Fits d'.streams := hfit
        have hstored := stored_claimNew (hb.touched holder now) (hk log hc) hl hcl hfit'
        exact hstored
    | report holder seq entries now =>
      have hh : holder = h := ho
      subst hh
      dsimp only [Dispenser.apply] at hl' ⊢
      have hcase := report_case d holder seq entries now
      generalize d.report holder seq entries now = r at hcase hl' ⊢
      cases hcase with
      | fenced | stale | replayed | refused => exact hs holder l' n id ranges hl' hlast
      | new l t d' _ _ _ _ =>
        -- a report replaces the stored grant
        cases (last_remember hl').symm.trans hlast
    | _ => exact ho.elim
  · cases hl : d.live.find h with
    | none =>
      rw [joined_last hb hl ho hl'] at hlast
      cases hlast
    | some l => exact stored_spares hs (spares_apply hb hl ho) hl hl' hlast

variable {cfg : DispenseConfig} {lease : Nat} {w : World}

theorem stored_reachable (h : (runs cfg lease).Reachable w) :
    Fits w.disp.streams → StoredOk w.disp := by
  refine System.invariant (P := fun w => Fits w.disp.streams → StoredOk w.disp) ?_ ?_ h
  · intro w hi _
    cases hi
    intro h' l n id ranges hl
    cases hl
  · intro w w' hr ih hstep hfit
    have hok := worldOk_reachable hr
    cases hstep with
    | op o =>
      have hfit₀ := (grows_apply hok.books o).fits hfit
      exact (ih hfit₀).apply hok.books (hok.conserved hfit₀) o hfit
    | drain | record => exact ih hfit
    | restart bytes log d hm hrestore =>
      obtain ⟨d₀, rfl, -, hb, -⟩ := hok.records bytes log hm
      obtain ⟨queue, holders, hres, -⟩ := restore_inv hb hrestore
      intro h' l n id ranges hl
      rw [hres.live] at hl
      cases hl

theorem contains_claimNew (hl : d.live.find holder = some l) (wanted : Nat) (h : Holder) :
    (d.claimNew holder wanted).2.live.contains h = d.live.contains h := by
  have hg := (gave_collect d l.accept wanted).live
  refine claimNew_cases (P := fun d' => d'.live.contains h = d.live.contains h) hl wanted rfl
    (fun _ => ?_) ?_ <;> rw [← hg]
  · unfold answerEmpty
    split
    · rfl
    · split
      · exact contains_update _ _ _ _
      · rfl
  · exact contains_update _ _ _ _

theorem claim_stored (h : d.claim holder seq wanted now = (.ok (.grant id ranges), d')) :
    ∃ l, d'.live.find holder = some l ∧ l.last = some (seq, .claim (.grant id ranges)) := by
  have hcase := claim_case d holder seq wanted now
  rw [h] at hcase
  cases hcase with
  | replayed l c _ hl hlast => exact ⟨l, hl, hlast⟩
  | new l c d₁ _ hl _ hcl =>
    have hlive : d₁.live.contains holder = true := by
      have := contains_claimNew (d := touched d holder now) hl wanted holder
      rw [hcl] at this
      exact this.trans ((contains_iff _ _).2 ⟨l, hl⟩)
    obtain ⟨l₁, hl₁⟩ := (contains_iff _ _).1 hlive
    exact ⟨_, find_remember hl₁ seq _, rfl⟩

/-- Every answer to a claim, new or resent, names positions that are open
in its block and not settled. -/
theorem granted_open (hr : (runs cfg lease).Reachable w)
    (hclaim : w.disp.claim holder seq wanted now = (.ok (.grant id ranges), d'))
    (hfit' : Fits d'.streams) : ∃ b, d'.blocks.find id = some b
      ∧ ∀ p ∈ positions ranges, b.Holds p ∧ p ∉ settledOf w.log := by
  -- the answer is stored in the state after the claim, where the granted
  -- positions are open and hence not settled
  have hok := worldOk_reachable hr
  have hstep : (runs cfg lease).Reachable
      { w with disp := w.disp.apply (.claim holder seq wanted now) } := hr.step (World.Step.op w _)
  have hd' : w.disp.apply (.claim holder seq wanted now) = d' := congrArg Prod.snd hclaim
  rw [hd'] at hstep
  have hc' := (worldOk_reachable hstep).conserved hfit'
  obtain ⟨l, hl, hlast⟩ := claim_stored hclaim
  obtain ⟨b, hf, -, hholds⟩ := stored_reachable hstep hfit' holder l seq id ranges hl hlast
  refine ⟨b, hf, fun p hp => ⟨hholds p hp, fun hset => ?_⟩⟩
  have hsum : heldCells d'.blocks = cellsOf b.spans + heldCells (d'.blocks.erase id) :=
    sum_erase_add d'.blocks _ hf
  have hopen : p ∈ items (heldCells d'.blocks) := by
    rw [hsum, items_add]
    exact mem_add.2 (.inl (mem_items_spans.1 (hholds p hp)))
  have hafter : p ∈ settledOf (w.before ++ d'.events) := by
    obtain ⟨es, he, -⟩ := keeps_apply hok.books (.claim holder seq wanted now) (hd' ▸ hfit')
    rw [hd'] at he
    rw [he, ← List.append_assoc, settledOf_append]
    exact mem_add.2 (.inl hset)
  exact (hc'.ledger.active (mem_add.2 (.inr hopen))).2 hafter

end Yeto.Dispense
