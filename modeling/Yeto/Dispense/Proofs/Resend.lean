/-
Resent requests: one that is sent again before the holder's next gets the
answer of the first time, and leaves no trace but a renewed lease.

`Twin h d d'` is what the run WITH the resends and the run without them have in
common: everything but the log and the lease time of `h`. `Answered` is the
fact a resend relies on: the answer is stored, or the request was refused for
a reason that other holders' operations cannot remove.
-/
import Yeto.Dispense.Proofs.Others
import Yeto.Dispense.Proofs.Refuse

namespace Yeto.Dispense

open Lib Dispenser List SortedMap Members

variable {x : Holder} {l : Live} {now : Nat} {maxRedo : Nat} {o : Op}

/-- Lease times that agree but for the holder's own. -/
structure Agree (h : Holder) (a b : SortedMap Holder Nat) : Prop where
  other : ∀ k, k ≠ h → b.find k = a.find k
  own : b.contains h = a.contains h

variable {h : Holder}

theorem Agree.refl (a : SortedMap Holder Nat) : Agree h a a := ⟨fun _ _ => rfl, rfl⟩

variable {a b : SortedMap Holder Nat}

theorem Agree.contains (hab : Agree h a b) (k : Holder) : b.contains k = a.contains k := by
  by_cases hk : k = h
  · subst hk
    exact hab.own
  · unfold SortedMap.contains
    rw [hab.other k hk]

theorem Agree.erase (hab : Agree h a b) (k : Holder) : Agree h (a.erase k) (b.erase k) := by
  constructor
  · intro x hx
    rw [find_erase, find_erase, hab.other x hx]
  · rw [Bool.eq_iff_iff, SortedMap.contains_erase, SortedMap.contains_erase, hab.own]

theorem Agree.insert (hab : Agree h a b)
    (k : Holder) (t : Nat) : Agree h (a.insert k t) (b.insert k t) := by
  constructor
  · intro x hx
    rw [find_insert, find_insert, hab.other x hx]
  · rw [Bool.eq_iff_iff, SortedMap.contains_insert, SortedMap.contains_insert, hab.own]

/-- Member tables that differ in the holder's lease time only. -/
def MemberTwin (h : Holder) (m m' : Members) : Prop :=
  ∃ seen, m' = { m with lastSeen := seen } ∧ Agree h m.lastSeen seen

theorem MemberTwin.refl (m : Members) : MemberTwin h m m := ⟨m.lastSeen, rfl, Agree.refl _⟩

section MemberTwins

variable {m m' : Members}

theorem MemberTwin.isLive (hm : MemberTwin h m m') (k : Holder) : m'.isLive k = m.isLive k := by
  obtain ⟨seen, rfl, hs⟩ := hm
  exact hs.contains k

theorem MemberTwin.retiredSet (hm : MemberTwin h m m') : m'.retiredSet = m.retiredSet := by
  obtain ⟨seen, rfl, -⟩ := hm
  rfl

theorem MemberTwin.isRetired (hm : MemberTwin h m m') (k : Holder) :
    m'.isRetired k = m.isRetired k := by
  obtain ⟨seen, rfl, -⟩ := hm
  rfl

theorem MemberTwin.retire (hm : MemberTwin h m m') (k : Holder)
    (r : Retired) : MemberTwin h (m.retire k r) (m'.retire k r) := by
  obtain ⟨seen, rfl, hs⟩ := hm
  refine ⟨seen.erase k, ?_, ?_⟩
  · dsimp only [retire]
    split <;> rfl
  · rw [retire_lastSeen]
    exact hs.erase k

theorem MemberTwin.retireAll (hs : List Holder) (r : Retired) :
    ∀ {m m' : Members}, MemberTwin h m m' →
      MemberTwin h (m.retireAll hs r) (m'.retireAll hs r) := by
  induction hs with
  | nil => intro m m' hm; exact hm
  | cons k hs ih => intro m m' hm; exact ih (hm.retire k r)

theorem MemberTwin.touch (hm : MemberTwin h m m') (k : Holder) (now : Nat) :
    (m'.touch k now).1 = (m.touch k now).1 ∧ MemberTwin h (m.touch k now).2 (m'.touch k now).2 := by
  obtain ⟨seen, rfl, hs⟩ := hm
  unfold touch
  rw [hs.contains k]
  split
  · exact ⟨rfl, seen.insert k now, rfl, hs.insert k now⟩
  · exact ⟨rfl, seen, rfl, hs⟩

theorem MemberTwin.join (hm : MemberTwin h m m') (k : Holder) (now : Nat) :
    MemberTwin h (m.join k now).2 (m'.join k now).2 := by
  have hadd : ∀ {a a' : Members}, MemberTwin h a a' → MemberTwin h { a with
          current := a.current.insert k.learnerId k.incarnation
          lastSeen := a.lastSeen.insert k now } { a' with
          current := a'.current.insert k.learnerId k.incarnation
          lastSeen := a'.lastSeen.insert k now } := by
    rintro a a' ⟨seen, rfl, hs⟩
    exact ⟨seen.insert k now, rfl, hs.insert k now⟩
  have hcur : m'.currentOf k.learnerId = m.currentOf k.learnerId := by
    obtain ⟨seen, rfl, -⟩ := hm
    rfl
  unfold Members.join
  rw [show m'.lastSeen.contains k = m.lastSeen.contains k from hm.isLive k, hcur]
  split
  · obtain ⟨seen, rfl, hs⟩ := hm
    exact ⟨seen.insert k now, rfl, hs.insert k now⟩
  · cases m.currentOf k.learnerId with
    | none => exact hadd hm
    | some old => exact hadd (hm.retire old .superseded)

theorem MemberTwin.expired (hm : MemberTwin h m m') (h1 : h ∉ m.expired now)
    (h2 : h ∉ m'.expired now) : m'.expired now = m.expired now := by
  have hlease : m'.lease = m.lease := by
    obtain ⟨seen, rfl, -⟩ := hm
    rfl
  have hother : ∀ k, k ≠ h → m'.lastSeen.find k = m.lastSeen.find k := by
    obtain ⟨seen, rfl, hs⟩ := hm
    exact hs.other
  refine List.Perm.eq_of_pairwise
    (fun a b _ _ (hab : a < b) hba => absurd (hab.trans hba) (lt_irrefl a))
    (sorted_expired m' now) (sorted_expired m now) ?_
  refine (perm_ext_iff_of_nodup (sorted_expired m' now).nodup
    (sorted_expired m now).nodup).2 fun k => ?_
  by_cases hk : k = h
  · subst hk
    exact iff_of_false h2 h1
  · rw [mem_expired, mem_expired, hother k hk, hlease]

end MemberTwins

/-- Dispensers that differ in the log and the holder's lease time only. -/
structure Twin (h : Holder) (d d' : Dispenser) : Prop where
  cfg : d'.cfg = d.cfg
  data : d'.data = d.data
  streams : d'.streams = d.streams
  blocks : d'.blocks = d.blocks
  nextBlock : d'.nextBlock = d.nextBlock
  live : d'.live = d.live
  totals : d'.totals = d.totals
  members : MemberTwin h d.members d'.members

theorem Twin.refl (d : Dispenser) : Twin h d d :=
  ⟨rfl, rfl, rfl, rfl, rfl, rfl, rfl, MemberTwin.refl _⟩

section Twins

variable {d d' : Dispenser}

theorem twin_with (d : Dispenser) {m : Members} (es : List DispenseEvent)
    (hm : MemberTwin h d.members m) : Twin h d { d with members := m, events := es } :=
  ⟨rfl, rfl, rfl, rfl, rfl, rfl, rfl, hm⟩

section

variable (ht : Twin h d d')
include ht

theorem Twin.eq : d' = { d with members := d'.members, events := d'.events } := by
  obtain ⟨h1, h2, h3, h4, h5, h6, h7, -⟩ := ht
  cases d
  cases d'
  subst h1 h2 h3 h4 h5 h6 h7
  rfl

theorem Twin.log (es es' : List DispenseEvent) : Twin h (d.log es) (d'.log es') := { ht with }

theorem Twin.with_members {m m' : Members} (hm : MemberTwin h m m') :
    Twin h { d with members := m } { d' with members := m' } := { ht with members := hm }

theorem Twin.reclaim (k : Holder) (reason : ReclaimReason) :
    Twin h (d.reclaim k reason).2 (d'.reclaim k reason).2 := by
  rw [ht.eq]
  generalize d'.events = es
  have hm := ht.members
  unfold Dispenser.reclaim
  cases d.live.find k with
  | none => exact twin_with d es hm
  | some live => exact ⟨rfl, rfl, rfl, rfl, rfl, rfl, rfl, hm.retire k _⟩

theorem Twin.reclaims (es : List (Holder × ReclaimReason)) :
    Twin h (reclaimAll es d) (reclaimAll es d') := by
  induction es generalizing d d' with
  | nil => exact ht
  | cons e es ih => exact ih (ht.reclaim e.1 e.2)

theorem Twin.expire (h1 : h ∉ d.members.expired now) (h2 : h ∉ d'.members.expired now) :
    Twin h (d.expire now).2 (d'.expire now).2 := by
  have hm : MemberTwin h (d.members.expire now).2 (d'.members.expire now).2 := by
    unfold Members.expire
    rw [ht.members.expired h1 h2]
    exact MemberTwin.retireAll _ _ ht.members
  have hlist : (d'.live.keys.filter (d'.members.expire now).2.isRetired).map
      (fun k => (k, (d'.members.expire now).2.retiredReason k))
      = (d.live.keys.filter (d.members.expire now).2.isRetired).map
      (fun k => (k, (d.members.expire now).2.retiredReason k)) := by
    have hset := hm.retiredSet
    unfold isRetired retiredReason
    rw [ht.live, hset]
  dsimp only [Dispenser.expire]
  rw [hlist]
  rw [reclaimRetired_eq, reclaimRetired_eq]
  exact (ht.with_members hm).reclaims _

section

variable (holder : Holder)

theorem Twin.agreeData (data : DataDecl) :
    (∃ e, d.agreeData holder data = .error e ∧ d'.agreeData holder data = .error e)
      ∨ ∃ a a', d.agreeData holder data = .ok a
        ∧ d'.agreeData holder data = .ok a' ∧ Twin h a a' := by
  unfold Dispenser.agreeData
  rw [ht.data]
  cases d.data with
  | none => exact .inr ⟨_, _, rfl, rfl, { ht with data := rfl, streams := rfl }⟩
  | some run =>
    dsimp only
    by_cases hne : run ≠ data
    · rw [if_pos hne, if_pos hne]
      exact .inl ⟨_, rfl, rfl⟩
    · rw [if_neg hne, if_neg hne]
      exact .inr ⟨d, d', rfl, rfl, ht⟩

theorem Twin.enroll (data : DataDecl) (list : List Nat) (now : Nat) :
    Twin h (d.enroll holder data list now).2 (d'.enroll holder data list now).2 := by
  have holder_eq : d'.olderOf holder = d.olderOf holder := by
    unfold olderOf
    rw [ht.live]
  dsimp only [Dispenser.enroll]
  rw [show d'.live.contains holder = d.live.contains holder by rw [ht.live],
    show d'.live.size = d.live.size by rw [ht.live]]
  split
  · exact { ht with
      live := by rw [ht.live], members := (ht.members.touch holder now).2 }
  split
  · exact ht
  · have hs := (ht.with_members (ht.members.join holder now)).reclaims
      ((d.olderOf holder).map (·, .superseded))
    rw [holder_eq, supersede_eq, supersede_eq]
    exact { hs with live := by rw [hs.live] }

theorem Twin.openWith (data : DataDecl) (accept : Option (List Nat)) (now : Nat) :
    Twin h (d.openWith holder data accept now).2 (d'.openWith holder data accept now).2 := by
  unfold Dispenser.openWith
  rw [ht.members.isRetired holder]
  split
  · exact ht.log _ _
  split
  · exact ht
  split
  · exact ht
  rcases ht.agreeData holder data with ⟨e, h1, h2⟩ | ⟨a, a', h1, h2, ha⟩ <;> rw [h1, h2]
  · exact ht
  · dsimp only
    rw [ha.streams]
    split
    · exact ha
    · exact ha.enroll holder data _ now

theorem Twin.requireLive (request : Request) (now : Nat) :
    (d'.requireLive holder request now).1 = (d.requireLive holder request now).1
      ∧ Twin h (d.requireLive holder request now).2 (d'.requireLive holder request now).2 := by
  obtain ⟨htouch, hm⟩ := ht.members.touch holder now
  have htext : d'.members.fencedText holder = d.members.fencedText holder := by
    unfold fencedText retiredReason
    rw [ht.members.retiredSet]
  unfold Dispenser.requireLive
  rw [ht.live, htouch, ht.members.isRetired holder, htext]
  split
  · exact ⟨rfl, { ht with live := rfl, members := hm }⟩
  · split
    · exact ⟨rfl, ht.log _ _⟩
    · exact ⟨rfl, ht.log _ _⟩

theorem Twin.remember (seq : Nat) (a : Answer) :
    Twin h (d.remember holder seq a) (d'.remember holder seq a) :=
  { ht with live := by unfold Dispenser.remember; rw [ht.live] }

end

end

theorem Twin.giveFresh (picks : List (Nat × Nat)) : ∀ {d d' : Dispenser},
    Twin h d d' → (giveFresh picks d').1 = (giveFresh picks d).1
      ∧ Twin h (giveFresh picks d).2 (giveFresh picks d').2 := by
  induction picks with
  | nil => intro d d' ht; exact ⟨rfl, ht⟩
  | cons e picks ih =>
    intro d d' ht
    obtain ⟨s, n⟩ := e
    have hone : (d'.giveOne s n).1 = (d.giveOne s n).1
        ∧ Twin h (d.giveOne s n).2 (d'.giveOne s n).2 := by
      rw [ht.eq]
      exact ⟨rfl, rfl, rfl, rfl, rfl, rfl, rfl, rfl, ht.members⟩
    obtain ⟨h1, h2⟩ := ih hone.2
    dsimp only [Dispenser.giveFresh]
    rw [h1, hone.1]
    exact ⟨rfl, h2⟩

section

variable (ht : Twin h d d')
include ht

theorem Twin.pickFresh (accept : List Nat) (need : Nat) :
    d'.pickFresh accept need = d.pickFresh accept need := by
  rw [ht.eq]
  rfl

theorem Twin.collect (accept : List Nat) (wanted : Nat) :
    (d'.collect accept wanted).1 = (d.collect accept wanted).1
      ∧ Twin h (d.collect accept wanted).2 (d'.collect accept wanted).2 := by
  have hdrain : Twin h (afterDrain d accept wanted) (afterDrain d' accept wanted) := by
    unfold afterDrain
    rw [ht.streams]
    exact { ht with streams := rfl }
  have hpicks : picksOf d' accept wanted = picksOf d accept wanted := by
    unfold picksOf
    rw [hdrain.pickFresh, ht.streams]
  obtain ⟨h1, h2⟩ := Twin.giveFresh (picksOf d accept wanted) hdrain
  rw [collect_eq, collect_eq, hpicks, ht.streams]
  rw [h1]
  exact ⟨rfl, h2⟩

section

variable (holder : Holder)

theorem Twin.grant (spans : List Span) : (d'.grant holder spans).1 = (d.grant holder spans).1
      ∧ Twin h (d.grant holder spans).2 (d'.grant holder spans).2 := by
  rw [ht.eq]
  exact ⟨rfl, rfl, rfl, rfl, rfl, rfl, rfl, rfl, ht.members⟩

theorem Twin.answerEmpty (accept : List Nat) :
    (d'.answerEmpty holder accept).1 = (d.answerEmpty holder accept).1
      ∧ Twin h (d.answerEmpty holder accept).2 (d'.answerEmpty holder accept).2 := by
  have hex : d'.exhausted = d.exhausted := by
    rw [ht.eq]
    rfl
  have hany : d'.holdsAny accept = d.holdsAny accept := by
    rw [ht.eq]
    rfl
  unfold Dispenser.answerEmpty
  rw [hex, hany, ht.live]
  split
  · exact ⟨rfl, ht.log _ _⟩
  · split
    · exact ⟨rfl, { ht with live := rfl }⟩
    · exact ⟨rfl, ht⟩

theorem Twin.claimNew (wanted : Nat) : (d'.claimNew holder wanted).1 = (d.claimNew holder wanted).1
      ∧ Twin h (d.claimNew holder wanted).2 (d'.claimNew holder wanted).2 := by
  have hacc : d'.acceptOf holder = d.acceptOf holder := by
    unfold Dispenser.acceptOf
    rw [ht.live]
  obtain ⟨h1, h2⟩ := ht.collect (d.acceptOf holder) wanted
  dsimp only [Dispenser.claimNew]
  rw [ht.cfg, hacc, h1]
  split
  · exact ⟨rfl, ht⟩
  split
  · obtain ⟨h3, h4⟩ := h2.answerEmpty holder (d.acceptOf holder)
    rw [h3]
    exact ⟨rfl, h4⟩
  · obtain ⟨h3, h4⟩ := h2.grant holder (d.collect (d.acceptOf holder) wanted).1
    rw [h3]
    exact ⟨rfl, h4⟩

theorem Twin.replay (seq : Nat) : d'.replay holder seq = d.replay holder seq := by
  unfold Dispenser.replay
  rw [ht.live]

omit ht in
theorem Twin.outcome {α : Type} {r r' : α × Dispenser} (ht : r'.1 = r.1 ∧ Twin h r.2 r'.2) :
    ∃ a e e', r = (a, e) ∧ r' = (a, e') ∧ Twin h e e' := ⟨r.1, r.2, r'.2, rfl, by rw [← ht.1], ht.2⟩

theorem Twin.request {α : Type} {kind : Request} {seq : Nat} {own : Answer → Except DispenseError α}
    {wrap : α → Answer} {new : Dispenser → Except DispenseError α × Dispenser}
    (hnew : ∀ {d d'}, Twin h d d' → (new d').1 = (new d).1 ∧ Twin h (new d).2 (new d').2) :
    Twin h (request d holder kind seq now own wrap new).2
      (request d' holder kind seq now own wrap new).2 := by
  obtain ⟨res, d₁, d₁', hr, hr', h2⟩ := Twin.outcome (ht.requireLive holder kind now)
  unfold Dispense.request
  rw [hr, hr']
  cases res with
  | error e => exact h2
  | ok u =>
    obtain ⟨ans, d₂, d₂', hc, hc', h4⟩ := Twin.outcome (hnew h2)
    dsimp only
    rw [h2.replay, hc, hc']
    cases d₁.replay holder seq with
    | error e => exact h2
    | ok stored =>
      cases stored with
      | none =>
        cases ans with
        | error e => exact h4
        | ok c => exact h4.remember holder seq _
      | some a => exact h2

theorem Twin.claim (seq wanted now : Nat) :
    Twin h (d.claim holder seq wanted now).2 (d'.claim holder seq wanted now).2 := by
  rw [claim_eq, claim_eq]
  exact ht.request holder fun ht => ht.claimNew holder wanted

end

end

theorem requeueSpan_events (ev : List DispenseEvent) {acc : Tally × List (Nat × Nat)}
    (span : Span) : requeueSpan maxRedo ({ acc.1 with events := ev }, acc.2) span
      = ({ (requeueSpan maxRedo acc span).1 with events := ev },
          (requeueSpan maxRedo acc span).2) := by
  unfold requeueSpan
  split <;> rfl

theorem foldl_requeueSpan_events (ev : List DispenseEvent) {spans : List Span} :
    ∀ acc : Tally × List (Nat × Nat),
      spans.foldl (requeueSpan maxRedo) ({ acc.1 with events := ev }, acc.2)
        = ({ (spans.foldl (requeueSpan maxRedo) acc).1 with events := ev },
            (spans.foldl (requeueSpan maxRedo) acc).2) := by
  induction spans with
  | nil => intro acc; rfl
  | cons sp spans ih =>
    intro acc
    rw [foldl_cons, foldl_cons, requeueSpan_events]
    exact ih _

theorem commitEntry_events {holder : Holder} {t : Tally} (ev : List DispenseEvent)
    (e : ReportEntry × List Span) : ∃ ev', commitEntry maxRedo holder { t with events := ev } e
      = { commitEntry maxRedo holder t e with events := ev' } := by
  obtain ⟨entry, spans⟩ := e
  dsimp only [commitEntry]
  cases entry.kind with
  | trained | dropped | release => exact ⟨_, rfl⟩
  | requeue =>
    rw [foldl_requeueSpan_events ev ({ t with answer := { t.answer with
          settled := wadd t.answer.settled (lenSum spans) } }, [])]
    exact ⟨_, rfl⟩

theorem foldl_commitEntry_events {holder : Holder} {removed : List (ReportEntry × List Span)} :
    ∀ (t : Tally) (ev : List DispenseEvent),
      ∃ ev', removed.foldl (commitEntry maxRedo holder) { t with events := ev }
        = { removed.foldl (commitEntry maxRedo holder) t with
            events := ev' } := by
  induction removed with
  | nil => intro t ev; exact ⟨ev, rfl⟩
  | cons e removed ih =>
    intro t ev
    obtain ⟨ev', he⟩ := commitEntry_events ev e
    rw [foldl_cons, foldl_cons, he]
    exact ih _ ev'

theorem Twin.finish (holder : Holder) (staged : List (Nat × Block)) :
    ∀ {d d' : Dispenser}, Twin h d d' →
      Twin h (staged.foldl (finishBlock holder) d) (staged.foldl (finishBlock holder) d') := by
  induction staged with
  | nil => intro d d' ht; exact ht
  | cons e staged ih =>
    intro d d' ht
    refine ih ?_
    unfold finishBlock
    rw [ht.blocks, ht.live]
    split <;> exact { ht with blocks := rfl, live := rfl }

theorem Twin.pushFront (ht : Twin h d d') (spans : List Span) :
    Twin h (d.pushFront spans) (d'.pushFront spans) := by
  unfold Dispenser.pushFront
  rw [ht.streams]
  exact { ht with streams := rfl }

theorem Twin.reportNew (ht : Twin h d d') (holder : Holder) (entries : List ReportEntry) :
    (d'.reportNew holder entries).1 = (d.reportNew holder entries).1
      ∧ Twin h (d.reportNew holder entries).2 (d'.reportNew holder entries).2 := by
  unfold Dispenser.reportNew
  rw [stageEntries_congr (SameBlocks.of_eq ht.blocks), ht.cfg, ht.totals]
  cases d.stageEntries holder entries .empty with
  | error e => exact ⟨rfl, ht⟩
  | ok st =>
    obtain ⟨removed, staged⟩ := st
    obtain ⟨ev', he⟩ := foldl_commitEntry_events ⟨d.totals, .zero, [], d.events⟩ d'.events
    dsimp only at he ⊢
    rw [he]
    refine ⟨rfl, (Twin.finish holder staged.entries ?_).pushFront _⟩
    exact { ht with cfg := rfl, totals := rfl }

theorem Twin.report (ht : Twin h d d') (holder : Holder) (seq : Nat)
    (entries : List ReportEntry) (now : Nat) : Twin h (d.report holder seq entries now).2
      (d'.report holder seq entries now).2 := by
  rw [report_eq, report_eq]
  exact ht.request holder fun ht => ht.reportNew holder entries

theorem live_of_reclaim {k : Holder} {reason : ReclaimReason}
    (hx : (d.reclaim k reason).2.members.isLive x = true) : d.members.isLive x = true := by
  unfold Dispenser.reclaim at hx
  cases hl : d.live.find k with rw [hl] at hx
  | none => exact hx
  | some l => exact (contains_lastSeen_retire.1 hx).2

theorem not_expired_of_expire (hx : (d.expire now).2.members.isLive x = true) :
    x ∉ d.members.expired now := by
  obtain ⟨es, -, heq⟩ := expire_eq d now
  rw [heq] at hx
  have hlive := reclaims_keeps (Q := fun d' => d'.members.isLive x = true →
    (d.members.expire now).2.isLive x = true) (fun _ _ _ h hx => h (live_of_reclaim hx)) es id hx
  exact (contains_lastSeen_retireAll.1 hlive).1

theorem twin_apply (ht : Twin h d d') (h1 : (d.apply o).members.isLive h = true)
    (h2 : (d'.apply o).members.isLive h = true) : Twin h (d.apply o) (d'.apply o) := by
  cases o with
  | openWith holder data accept now => exact ht.openWith holder data accept now
  | claim holder seq wanted now => exact ht.claim holder seq wanted now
  | report holder seq entries now => exact ht.report holder seq entries now
  | heartbeat holder now => exact (ht.requireLive holder .heartbeat now).2
  | expire now => exact ht.expire (not_expired_of_expire h1) (not_expired_of_expire h2)
  | memberJoin holder now =>
    refine ht.with_members ?_
    show MemberTwin h (joinElsewhere d.members holder now) (joinElsewhere d'.members holder now)
    unfold joinElsewhere
    rw [ht.members.isRetired holder]
    split
    · exact ht.members
    · exact ht.members.join holder now
  | memberTouch holder now => exact ht.with_members (ht.members.touch holder now).2
  | memberRetire holder reason => exact ht.with_members (ht.members.retire holder reason)
  | memberExpire now =>
    refine ht.with_members ?_
    have hm := ht.members.expired (contains_lastSeen_retireAll.1 h1).1
      (contains_lastSeen_retireAll.1 h2).1
    unfold Op.onMembers Members.expire
    dsimp only
    rw [hm]
    exact MemberTwin.retireAll _ _ ht.members

theorem Twin.renew (ht : Twin h d d') (now : Nat) : Twin h d (touched d' h now) := by
  refine { ht with members := ?_ }
  obtain ⟨seen, hm, hs⟩ := ht.members
  unfold touched touch
  rw [hm]
  by_cases hc : seen.contains h = true
  · rw [if_pos hc]
    refine ⟨seen.insert h now, rfl, fun k hk => ?_, ?_⟩
    · rw [find_insert_ne _ _ hk]
      exact hs.other k hk
    · rw [← hs.own, hc]
      exact SortedMap.contains_insert.2 (.inl rfl)
  · rw [if_neg hc]
    exact ⟨seen, rfl, hs⟩

end Twins

/-- A numbered request. -/
inductive Ask
  | claim (seq wanted : Nat)
  | report (seq : Nat) (entries : List ReportEntry)

def Ask.seq : Ask → Nat
  | .claim seq _ => seq
  | .report seq _ => seq

def Ask.send (ask : Ask) (d : Dispenser) (holder : Holder) (now : Nat) :
    Except DispenseError Answer × Dispenser :=
  match ask with
  | .claim seq wanted =>
    let r := d.claim holder seq wanted now
    (r.1.map .claim, r.2)
  | .report seq entries =>
    let r := d.report holder seq entries now
    (r.1.map .report, r.2)

inductive Answered (d : Dispenser) (holder : Holder) : Ask → Except DispenseError Answer → Prop
  | claimed (l : Live) (seq wanted : Nat) (c : Claim) :
      d.live.find holder = some l → l.last = some (seq, .claim c) →
      Answered d holder (.claim seq wanted) (.ok (.claim c))
  | notSized (l : Live) (seq wanted : Nat) : d.live.find holder = some l → l.Newer seq →
      wanted = 0 ∨ wanted > d.cfg.maxBlock.val → Answered d holder (.claim seq wanted)
        (.error (.refused (sizeText wanted d.cfg.maxBlock.val)))
  | reported (l : Live) (seq : Nat) (entries : List ReportEntry) (t : ReportTotals) :
      d.live.find holder = some l → l.last = some (seq, .report t) →
      Answered d holder (.report seq entries) (.ok (.report t))
  | notStaged (l : Live) (seq : Nat) (entries : List ReportEntry) (e : DispenseError) :
      d.live.find holder = some l → l.Newer seq → d.stageEntries holder entries .empty = .error e →
      Answered d holder (.report seq entries) (.error e)

variable {holder : Holder} {d : Dispenser}

theorem live_reportNew (hl : d.live.find holder = some l) (entries : List ReportEntry) :
    ∃ l', (d.reportNew holder entries).2.live.find holder = some l' := by
  refine reportNew_rule (P := fun d => ∃ l', d.live.find holder = some l') ⟨l, hl⟩ fun _ hfin => ?_
  obtain ⟨l', hl', -⟩ := hfin.kept holder l hl
  exact ⟨l', hl'⟩

theorem answered_send (ask : Ask) (hlease : Leased d holder) (hl : d.live.find holder = some l)
    (hnew : l.Newer ask.seq) : Answered (ask.send d holder now).2 holder ask
      (ask.send d holder now).1 := by
  cases ask with
  | claim seq wanted =>
    have hcase := claim_case d holder seq wanted now
    dsimp only [Ask.send]
    generalize d.claim holder seq wanted now = r at hcase ⊢
    cases hcase with
    | fenced m hno => exact absurd hlease hno
    | stale l₁ m _ hl₁ hstale =>
      cases hl.symm.trans hl₁
      exact absurd hnew hstale
    | replayed l₁ c _ hl₁ hlast => exact .claimed l₁ seq wanted c hl₁ hlast
    | refused l₁ e _ hl₁ hnew₁ hfail =>
      obtain ⟨hsize, rfl, -⟩ := claimNew_error hfail
      exact .notSized l₁ seq wanted hl₁ hnew₁ hsize
    | new l₁ c d' _ hl₁ _ hcl =>
      have hkeep := contains_claimNew (d := touched d holder now) hl wanted holder
      rw [hcl] at hkeep
      obtain ⟨l', hl'⟩ := (SortedMap.contains_iff _ _).1
        (hkeep.trans ((SortedMap.contains_iff _ _).2 ⟨l, hl⟩))
      exact .claimed _ seq wanted c (find_remember hl' seq _) rfl
  | report seq entries =>
    have hcase := report_case d holder seq entries now
    dsimp only [Ask.send]
    generalize d.report holder seq entries now = r at hcase ⊢
    cases hcase with
    | fenced m hno => exact absurd hlease hno
    | stale l₁ m _ hl₁ hstale =>
      cases hl.symm.trans hl₁
      exact absurd hnew hstale
    | replayed l₁ t _ hl₁ hlast => exact .reported l₁ seq entries t hl₁ hlast
    | refused l₁ e _ hl₁ hnew₁ hfail =>
      exact .notStaged l₁ seq entries e hl₁ hnew₁ (reportNew_fails hfail).1
    | new l₁ t d' _ hl₁ _ hrep =>
      have hkeep := live_reportNew (d := touched d holder now) hl entries
      rw [hrep] at hkeep
      obtain ⟨l', hl'⟩ := hkeep
      exact .reported _ seq entries t (find_remember hl' seq _) rfl

variable {ans : Except DispenseError Answer} {ask : Ask}

theorem send_of_answered (hlease : Leased d holder) (ha : Answered d holder ask ans) :
    ask.send d holder now = (ans, touched d holder now) := by
  unfold Ask.send
  cases ha with dsimp only
  | claimed l seq wanted c hl hlast =>
    rw [claim_eq, request_leased hlease, replay_stored (d := touched d holder now) hl hlast]
    rfl
  | notSized l seq wanted hl hnew hsize =>
    rw [claim_eq, request_leased hlease, replay_newer (d := touched d holder now) hl hnew]
    rw [claimNew_refused (d := touched d holder now) holder hsize]
    rfl
  | reported l seq entries t hl hlast =>
    rw [report_eq, request_leased hlease, replay_stored (d := touched d holder now) hl hlast]
    rfl
  | notStaged l seq entries e hl hnew hst =>
    rw [report_eq, request_leased hlease, replay_newer (d := touched d holder now) hl hnew]
    rw [reportNew_error ((stageEntries_touched d holder now entries).trans hst)]
    rfl

theorem Answered.keep {d' : Dispenser} (ha : Answered d holder ask ans) (hcfg : d'.cfg = d.cfg)
    (hkept : ∀ {l : Live}, d.live.find holder = some l → ∃ l', d'.live.find holder = some l'
      ∧ l'.last = l.last ∧ SameBlocks holder d d') : Answered d' holder ask ans := by
  have hnewer : ∀ {l l' : Live} {seq : Nat}, l'.last = l.last → l.Newer seq → l'.Newer seq := by
    intro l l' seq e hnew n a hlast
    exact hnew n a (e ▸ hlast)
  cases ha with obtain ⟨l', hl', e, -⟩ := hkept hl
  | claimed l seq wanted c hl hlast => exact .claimed l' seq wanted c hl' (e.trans hlast)
  | notSized l seq wanted hl hnew hsize =>
    rw [← hcfg] at hsize ⊢
    exact .notSized l' seq wanted hl' (hnewer e hnew) hsize
  | reported l seq entries t hl hlast => exact .reported l' seq entries t hl' (e.trans hlast)
  | notStaged l seq entries err hl hnew hst =>
    obtain ⟨l', hl', e, hs⟩ := hkept hl
    exact .notStaged l' seq entries err hl' (hnewer e hnew)
      ((stageEntries_congr hs entries .empty).trans hst)

theorem Answered.apply (hb : Books d) (ha : Answered d holder ask ans) (ho : ¬ o.Requests holder)
    (hlease : Leased (d.apply o) holder) : Answered (d.apply o) holder ask ans := by
  refine ha.keep (grows_apply hb o).cfg fun {l} hl => ?_
  rcases (spares_apply hb hl ho).kept l hl with hnone | ⟨⟨l', hl', e⟩, hs⟩
  · have hin := hlease.1
    rw [(contains_eq_false_iff _ _).2 hnone] at hin
    cases hin
  · exact ⟨l', hl', e, hs⟩

theorem Answered.touched (ha : Answered d holder ask ans)
    (now : Nat) : Answered (touched d holder now) holder ask ans :=
  ha.keep rfl fun {l} hl => ⟨l, hl, rfl, SameBlocks.of_eq rfl⟩

/-- What happens after the request: another operation, or a resend. -/
inductive Item
  | other (o : Op)
  | resend (now : Nat)

/-- The run with the resends: their answers, and the state reached. -/
def withResends (ask : Ask) (holder : Holder) :
    List Item → Dispenser → List (Except DispenseError Answer) × Dispenser
  | [], d => ([], d)
  | .other o :: items, d => withResends ask holder items (d.apply o)
  | .resend now :: items, d =>
    let first := ask.send d holder now
    let rest := withResends ask holder items first.2
    (first.1 :: rest.1, rest.2)

def sentOnce : List Item → Dispenser → Dispenser
  | [], d => d
  | .other o :: items, d => sentOnce items (d.apply o)
  | .resend _ :: items, d => sentOnce items d

/-- The holder is live at every moment of both runs. A resend renews the
lease, so neither run's part of this follows from the other's. -/
def StaysLive (ask : Ask) (holder : Holder) (items : List Item) (d d' : Dispenser) : Prop :=
  ∀ n ≤ items.length, Leased (sentOnce (items.take n) d) holder
    ∧ Leased (withResends ask holder (items.take n) d').2 holder

/-- No claim or report of the holder among the other operations. -/
def NoneRequests (holder : Holder) (items : List Item) : Prop :=
  ∀ o, .other o ∈ items → ¬ o.Requests holder

/-- The run lemma: twins stay twins, and every resend gets the answer. -/
theorem resend_run {items : List Item} : ∀ {d d' : Dispenser}, Books d' → Twin holder d d' →
    Answered d' holder ask ans → NoneRequests holder items → StaysLive ask holder items d d' →
    (∀ a ∈ (withResends ask holder items d').1, a = ans)
      ∧ Twin holder (sentOnce items d) (withResends ask holder items d').2 := by
  induction items with
  | nil =>
    intro d d' _ ht _ _ _
    exact ⟨fun a ha => absurd ha not_mem_nil, ht⟩
  | cons item items ih =>
    intro d d' hb ht ha hno hlive
    have hno' : NoneRequests holder items := fun o ho => hno o (mem_cons_of_mem _ ho)
    have htail := fun n hn => hlive (n + 1) (Nat.succ_le_succ hn)
    obtain ⟨l1, l2⟩ := hlive 1 (Nat.succ_le_succ (Nat.zero_le _))
    cases item with
    | other o =>
      refine ih (hb.apply o) (twin_apply ht l1.2 l2.2)
        (ha.apply hb (hno o mem_cons_self) l2) hno' htail
    | resend now =>
      have hsend : ask.send d' holder now = (ans, touched d' holder now) :=
        send_of_answered (hlive 0 (Nat.zero_le _)).2 ha
      have htail' : StaysLive ask holder items d (touched d' holder now) := by
        intro n hn
        obtain ⟨t1, t2⟩ := htail n hn
        rw [take_succ_cons] at t1 t2
        unfold withResends at t2
        rw [hsend] at t2
        exact ⟨t1, t2⟩
      obtain ⟨h1, h2⟩ := ih (hb.touched holder now) (ht.renew now) (ha.touched now) hno' htail'
      unfold withResends sentOnce
      rw [hsend]
      refine ⟨fun a hmem => ?_, h2⟩
      rcases mem_cons.1 hmem with rfl | hmem
      · rfl
      · exact h1 a hmem

section Claim

variable {cfg : DispenseConfig} {lease : Nat} {w : World}

/-- Exactly-once application under resends: a live holder's fresh request,
resent any number of times among operations that leave the holder live,
gets the identical answer each time, and the state reached is that of the
run in which it was sent once, but for lease times and the log. -/
theorem resent_once (hr : (runs cfg lease).Reachable w) {holder : Holder}
    (hlease : Leased w.disp holder) (ask : Ask)
    (hfresh : ∀ l, w.disp.live.find holder = some l → l.Newer ask.seq)
    (now : Nat) (items : List Item) (hno : NoneRequests holder items)
    (hlive : StaysLive ask holder items (ask.send w.disp holder now).2
      (ask.send w.disp holder now).2) :
    (∀ a ∈ (withResends ask holder items (ask.send w.disp holder now).2).1,
        a = (ask.send w.disp holder now).1)
      ∧ Twin holder (sentOnce items (ask.send w.disp holder now).2)
        (withResends ask holder items (ask.send w.disp holder now).2).2 := by
  obtain ⟨l, hl⟩ := (SortedMap.contains_iff _ _).1 hlease.1
  have hb := (worldOk_reachable hr).books
  have hb' : Books (ask.send w.disp holder now).2 := by
    cases ask with
    | claim seq wanted => exact hb.claim holder seq wanted now
    | report seq entries => exact hb.report holder seq entries now
  exact resend_run hb' (Twin.refl _) (answered_send ask hlease hl (hfresh l hl)) hno hlive

end Claim

/-- A claim resent twice, around another island's hello and claim and an
expiry sweep. -/
def sampleItems : List Item := [.resend 4, .other (.openWith ⟨1, 3⟩ sampleData none 5),
    .other (.claim ⟨1, 3⟩ 1 1 6), .resend 7, .other (.expire 12)]

def sampleAsk : Except DispenseError Answer × Dispenser :=
  (Ask.claim 3 2).send sampleWorld.disp ⟨0, 7⟩ 3

theorem staysLive_sample : StaysLive (.claim 3 2) ⟨0, 7⟩ sampleItems sampleAsk.2 sampleAsk.2 := by
  unfold StaysLive Leased
  decide +kernel

theorem resent_once_sample : (∀ a ∈ (withResends (.claim 3 2) ⟨0, 7⟩ sampleItems sampleAsk.2).1,
        a = sampleAsk.1) ∧ Twin ⟨0, 7⟩ (sentOnce sampleItems sampleAsk.2)
        (withResends (.claim 3 2) ⟨0, 7⟩ sampleItems sampleAsk.2).2 := by
  have hlease : Leased sampleWorld.disp ⟨0, 7⟩ := by
    unfold Leased
    decide +kernel
  refine resent_once (reachable_after (reachable_start sampleConfig 10) sampleOps) hlease
    (.claim 3 2) ?_ 3 sampleItems ?_ staysLive_sample
  · intro l hl
    obtain ⟨l', hl', hnew⟩ := sampleWorld_live
    obtain rfl := Option.some.inj (hl'.symm.trans hl)
    exact hnew
  · intro o ho hreq
    simp only [sampleItems, mem_cons, not_mem_nil, or_false,
      reduceCtorEq, false_or, Item.other.injEq] at ho
    rcases ho with rfl | rfl | rfl
    · exact hreq
    · have heq : (⟨1, 3⟩ : Holder) = ⟨0, 7⟩ := hreq
      exact absurd heq (by decide)
    · exact hreq

end Yeto.Dispense
