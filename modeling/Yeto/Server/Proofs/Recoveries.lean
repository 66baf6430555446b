/-
What a peer recovery asks, offers and ends with.

Every call that moves a recovery asks the next donor, offers the degraded
source, or offers the peer source that the last donor answered with
(`Settles`). So the phase of a recovery is what the last of these events left
(`PendingOk`), and every event is right by those before it (`EventOk`).
-/
import Yeto.Server.Recoveries

namespace Yeto.Server

open Lib List SortedMap Function PeerRecovery Recovering

variable {versions : List Nat} {k : List RecoveryEvent} {donor : Member}
  {msg : Member × RecoveryMsg}

def asked (h : List RecoveryEvent) : List Member := h.filterMap fun
    | .asked donor => some donor
    | _ => none

/-- An event after those in `before`. -/
def EventOk (cfg : Config) (id : U32) (before : List RecoveryEvent) : RecoveryEvent → Prop
  | .asked donor =>
    (asked before).length < cfg.maxDonorTries
    ∧ donor.learnerId ∉ (asked before).map Member.learnerId ∧ donor.learnerId ≠ id
    ∧ ∀ versions, .offered .degraded versions ∉ before
  | .offered (.peer donor) versions =>
    (asked before).getLast? = some donor
    ∧ ∃ member step clock, before.head? = some (.began member step clock)
      ∧ List.Forall₂ (· ≤ ·) clock versions
  | _ => True

def HistoryOk (cfg : Config) (id : U32) (h : List RecoveryEvent) : Prop :=
  ∀ before e, before ++ [e] <+: h → EventOk cfg id before e

section Histories

variable {cfg : Config} {id : U32} {h : List RecoveryEvent} {e : RecoveryEvent}

theorem historyOk_nil : HistoryOk cfg id [] := by
  intro before e hpre
  have := hpre.length_le
  simp at this

theorem HistoryOk.concat (hok : HistoryOk cfg id h) (he : EventOk cfg id h e) :
    HistoryOk cfg id (h ++ [e]) := by
  intro before e' hpre
  rcases prefix_concat_iff.1 hpre with heq | hpre
  · obtain ⟨rfl, hone⟩ := append_inj' heq rfl
    obtain rfl := singleton_inj.1 hone
    exact he
  · exact hok before e' hpre

theorem asked_append (h k : List RecoveryEvent) : asked (h ++ k) = asked h ++ asked k :=
  filterMap_append

theorem HistoryOk.init (hok : HistoryOk cfg id (h ++ [e])) :
    HistoryOk cfg id h ∧ EventOk cfg id h e :=
  ⟨fun before e' hpre => hok before e' (hpre.trans (prefix_append _ _)), hok h e (prefix_refl _)⟩

theorem HistoryOk.donors (hok : HistoryOk cfg id h) : (asked h).length ≤ cfg.maxDonorTries
    ∧ ((asked h).map Member.learnerId).Nodup ∧ id ∉ (asked h).map Member.learnerId := by
  induction h using reverseRecOn with
  | nil => exact ⟨Nat.zero_le _, nodup_nil, not_mem_nil⟩
  | append_singleton h e ih =>
    obtain ⟨hok, he⟩ := hok.init
    obtain ⟨hlen, hnodup, hself⟩ := ih hok
    rw [asked_append]
    cases e with
    | asked donor =>
      obtain ⟨hlt, hnew, hne, -⟩ := he
      have hone : asked [RecoveryEvent.asked donor] = [donor] := rfl
      rw [hone, length_append, map_append]
      refine ⟨hlt, nodup_append.2 ⟨hnodup, nodup_singleton _, fun a ha b hb hab => ?_⟩, ?_⟩
      · have hb : b = donor.learnerId := mem_singleton.1 hb
        exact hnew (hb ▸ hab ▸ ha)
      · rw [mem_append, not_or]
        refine ⟨hself, fun hmem => hne ?_⟩
        exact (mem_singleton.1 hmem).symm
    | began | offered | refused | restored | promoted | done =>
      exact ⟨by simpa [asked] using hlen, by simpa [asked] using hnodup,
        by simpa [asked] using hself⟩

/-- A peer source is the answer of the donor asked last, and not older than
the clock. -/
theorem HistoryOk.peer (hok : HistoryOk cfg id h) {before after}
    (heq : h = before ++ .offered (.peer donor) versions :: after) :
    (asked before).getLast? = some donor
    ∧ ∃ member step clock, before.head? = some (.began member step clock)
      ∧ List.Forall₂ (· ≤ ·) clock versions := by
  refine hok before (.offered (.peer donor) versions) ⟨after, ?_⟩
  rw [heq, append_assoc]
  rfl

theorem HistoryOk.degraded (hok : HistoryOk cfg id h) {before after}
    (heq : h = before ++ .offered .degraded versions :: after) : asked after = [] := by
  induction after using reverseRecOn generalizing h with
  | nil => rfl
  | append_singleton after e ih =>
    have heq : h = (before ++ .offered .degraded versions :: after) ++ [e] := by
      rw [heq, append_assoc]
      rfl
    subst heq
    obtain ⟨hok, he⟩ := hok.init
    rw [asked_append, ih hok rfl]
    cases e with
    | asked donor =>
      refine absurd ?_ (he.2.2.2 versions)
      exact mem_append_cons_self
    | began | offered | refused | restored | promoted | done => rfl

end Histories

/-- What a recovery has been through so far allows the next donor. -/
structure AskOk (cfg : Config) (id : U32) (r : Recovering) (h : List RecoveryEvent) : Prop where
  member : r.member.learnerId = id
  began : h.head? = some (.began r.member r.step r.versions)
  tried : ∀ x, x ∈ r.tried ↔ x ∈ (asked h).map Member.learnerId
  attempts : r.attempts = (asked h).length
  undegraded : ∀ versions, .offered .degraded versions ∉ h

/-- A pending recovery is where the last event of its history left it. -/
structure PendingOk (cfg : Config) (id : U32) (r : Recovering) (h : List RecoveryEvent) : Prop where
  member : r.member.learnerId = id
  began : h.head? = some (.began r.member r.step r.versions)
  tried : ∀ x, x ∈ r.tried ↔ x ∈ (asked h).map Member.learnerId
  attempts : r.attempts = (asked h).length
  undegraded : r.phase ≠ .awaitRestore .degraded → ∀ versions, .offered .degraded versions ∉ h
  waits : ∀ donor deadline, r.phase = .awaitSnapshot donor deadline →
    (asked h).getLast? = some donor
  offered : ∀ kind, r.phase = .awaitRestore kind → ∃ versions, .offered kind versions ∈ h

theorem PendingOk.askOk {cfg : Config} {id : U32} {r : Recovering} {h : List RecoveryEvent}
    (hok : PendingOk cfg id r h) (hphase : r.phase ≠ .awaitRestore .degraded) : AskOk cfg id r h :=
  { hok with undegraded := hok.undegraded hphase }

/-- The event that brought a recovery into its phase. -/
def Settles (r : Recovering) (e : RecoveryEvent) : Prop :=
  (∃ donor deadline, e = .asked donor ∧ r.phase = .awaitSnapshot donor deadline)
  ∨ ∃ kind versions, e = .offered kind versions ∧ r.phase = .awaitRestore kind

structure MachineOk (cfg : Config) (s : PeerRecovery) (h : U32 → List RecoveryEvent) : Prop where
  histories : ∀ id, HistoryOk cfg id (h id)
  pending : ∀ id r, s.pending.find id = some r → PendingOk cfg id r (h id)

/-- A call moves the recoveries of some islands, each by one event. -/
def Moves (moved : U32 → Recovering → Prop) (s : PeerRecovery)
    (h : U32 → List RecoveryEvent) (s' : PeerRecovery) (h' : U32 → List RecoveryEvent) : Prop :=
  ∀ id, (s'.pending.find id = s.pending.find id ∧ h' id = h id)
    ∨ ∃ r r' e, s.pending.find id = some r ∧ moved id r
      ∧ s'.pending.find id = some r' ∧ r'.member = r.member ∧ h' id = h id ++ [e] ∧ Settles r' e

/-- No island under recovery is asked. -/
def FreeDonors (s : PeerRecovery) (out : List (Member × RecoveryMsg)) : Prop :=
  ∀ donor member step versions, (donor, RecoveryMsg.snapshotReq member step versions) ∈ out →
    s.pending.find donor.learnerId = none

section Call

variable {cfg : Config} {s : PeerRecovery} {h : U32 → List RecoveryEvent}
  {id : U32} {r : Recovering}

theorem pickDonor_some {candidates : List Candidate} (hr : s.pending.find id = some r)
    (hpick : s.pickDonor cfg id candidates = some donor) :
    r.attempts < cfg.maxDonorTries ∧ donor.learnerId ≠ id
    ∧ donor.learnerId ∉ r.tried ∧ s.pending.find donor.learnerId = none := by
  unfold pickDonor at hpick
  rw [hr] at hpick
  obtain ⟨hlt, hpick⟩ := Option.ite_none_left_eq_some.1 hpick
  obtain ⟨c, hc, rfl⟩ := Option.map_eq_some_iff.1 hpick
  have hmem := argmin_mem hc
  obtain ⟨-, hfilter⟩ := mem_filter.1 hmem
  simp only [Bool.and_eq_true, decide_eq_true_eq, Bool.not_eq_true'] at hfilter
  exact ⟨not_le.1 hlt, hfilter.1.1, hfilter.1.2, (contains_eq_false_iff ..).1 hfilter.2⟩

section

variable (h)

theorem noted_nil : noted h [] = h := by
  funext x
  exact append_nil _

theorem noted_append {out : List (Member × RecoveryMsg)} {out' : List (Member × RecoveryMsg)} :
    noted h (out ++ out') = noted (noted h out) out' := by
  funext x
  unfold noted
  rw [filterMap_append, append_assoc]

theorem noted_singleton (id : U32) {e : RecoveryEvent} (hself : eventFor id msg = some e)
    (hother : ∀ x ≠ id, eventFor x msg = none) : noted h [msg] = update h id (h id ++ [e]) := by
  funext x
  unfold noted
  by_cases hx : x = id
  · subst hx
    rw [update_self, filterMap_cons_some hself]
    rfl
  · rw [update_of_ne hx, filterMap_cons_none (hother x hx)]
    exact append_nil _

end

/-- A call, all in one: it keeps the machine and the histories in step, moves
only some recoveries, and asks no island under recovery. -/
structure CallOk (cfg : Config) (moved : U32 → Recovering → Prop)
    (s : PeerRecovery) (h : U32 → List RecoveryEvent)
    (out : List (Member × RecoveryMsg) × PeerRecovery) : Prop where
  machine : MachineOk cfg out.2 (noted h out.1)
  moves : Moves moved s h out.2 (noted h out.1)
  free : FreeDonors out.2 out.1

theorem MachineOk.idle (hok : MachineOk cfg s h)
    (moved : U32 → Recovering → Prop) : CallOk cfg moved s h ([], s) where
  machine := by
    rw [noted_nil]
    exact hok
  moves id := by
    rw [noted_nil]
    exact .inl ⟨rfl, rfl⟩
  free := nofun

theorem CallOk.imp {moved moved' : U32 → Recovering → Prop}
    {out : List (Member × RecoveryMsg) × PeerRecovery} (hcall : CallOk cfg moved s h out)
    (himp : ∀ x q, moved x q → moved' x q) : CallOk cfg moved' s h out := by
  refine ⟨hcall.machine, fun x => ?_, hcall.free⟩
  rcases hcall.moves x with hsame | ⟨q, q', e, hq, hmoved, hrest⟩
  · exact .inl hsame
  · exact .inr ⟨q, q', e, hq, himp x q hmoved, hrest⟩

/-- The recovery as it is when a donor is asked: its phase does not matter. -/
structure Asking (cfg : Config) (s : PeerRecovery)
    (h : U32 → List RecoveryEvent) (id : U32) (r : Recovering) : Prop where
  histories : ∀ x, HistoryOk cfg x (h x)
  others : ∀ x q, x ≠ id → s.pending.find x = some q → PendingOk cfg x q (h x)
  find : s.pending.find id = some r
  ready : AskOk cfg id r (h id)

theorem asked_concat_asked {h : List RecoveryEvent} :
    asked (h ++ [.asked donor]) = asked h ++ [donor] := asked_append ..

theorem asked_concat_offered {h : List RecoveryEvent} {kind : SourceKind} :
    asked (h ++ [.offered kind versions]) = asked h := by
  rw [asked_append]
  exact append_nil _

theorem head?_concat {h : List RecoveryEvent} {b : RecoveryEvent}
    (hb : h.head? = some b) {e : RecoveryEvent} : (h ++ [e]).head? = some b := by
  rw [head?_append, hb]
  rfl

theorem Asking.move (hask : Asking cfg s h id r) {r' : Recovering} {e : RecoveryEvent}
    (hpending : PendingOk cfg id r' (h id ++ [e])) (hmember : r'.member = r.member)
    (he : EventOk cfg id (h id) e) (hsettles : Settles r' e) (hself : eventFor id msg = some e)
    (hother : ∀ x ≠ id, eventFor x msg = none) (hfree : FreeDonors ⟨s.pending.insert id r'⟩ [msg]) :
    CallOk cfg (fun x q => x = id ∧ q = r) s h ([msg], ⟨s.pending.insert id r'⟩) := by
  have hnoted := noted_singleton h id hself hother
  refine ⟨⟨?_, fun x q hq => ?_⟩, fun x => ?_, hfree⟩ <;> dsimp only <;> rw [hnoted]
  · exact (forall_update_iff h (HistoryOk cfg)).2
      ⟨(hask.histories id).concat he, fun x _ => hask.histories x⟩
  · obtain ⟨rfl, rfl⟩ | ⟨hx, hq⟩ := find_insert_cases hq
    · rw [update_self]
      exact hpending
    · rw [update_of_ne hx]
      exact hask.others x q hx hq
  · by_cases hx : x = id
    · subst hx
      exact .inr ⟨r, r', e, hask.find, ⟨rfl, rfl⟩, find_insert_self .., hmember, update_self ..,
        hsettles⟩
    · exact .inl ⟨find_insert_ne _ _ hx, update_of_ne hx ..⟩

theorem AskOk.asked (hready : AskOk cfg id r k) (donor : Member) (deadline : Nat) :
    PendingOk cfg id { r with
        attempts := r.attempts + 1
        tried := donor.learnerId :: r.tried
        phase := .awaitSnapshot donor deadline } (k ++ [.asked donor]) where
  member := hready.member
  began := head?_concat hready.began
  tried x := by
    rw [asked_concat_asked, map_append, mem_append, mem_cons,
      hready.tried, map_singleton, mem_singleton, or_comm]
  attempts := by
    rw [asked_concat_asked, length_append, ← hready.attempts]
    rfl
  undegraded _ versions hmem := by
    rcases mem_snoc.1 hmem with hmem | hmem
    · exact hready.undegraded versions hmem
    · cases hmem
  waits d _ heq := by
    cases heq
    rw [asked_concat_asked, getLast?_concat]
  offered := nofun

theorem AskOk.offered (hready : AskOk cfg id r k) (kind : SourceKind) (versions : List Nat) :
    PendingOk cfg id { r with phase := .awaitRestore kind } (k ++ [.offered kind versions]) where
  member := hready.member
  began := head?_concat hready.began
  tried x := by
    rw [asked_concat_offered]
    exact hready.tried x
  attempts := by
    rw [asked_concat_offered]
    exact hready.attempts
  undegraded hphase vs hmem := by
    rcases mem_snoc.1 hmem with hmem | heq
    · exact hready.undegraded vs hmem
    · cases heq
      exact hphase rfl
  waits := nofun
  offered k' heq := by
    cases heq
    exact ⟨versions, mem_append_cons_self⟩

theorem Asking.ask (hask : Asking cfg s h id r) (candidates : List Candidate) (now : Nat) :
    CallOk cfg (fun x q => x = id ∧ q = r) s h
      (s.ask cfg id (s.pickDonor cfg id candidates) now) := by
  have hready := hask.ready
  have hself : r.member.learnerId = id := hready.member
  have hother : ∀ x ≠ id, ¬ r.member.learnerId = x := fun x hx heq => hx (heq.symm.trans hself)
  unfold PeerRecovery.ask
  rw [hask.find]
  cases hpick : s.pickDonor cfg id candidates with
  | some donor =>
    obtain ⟨hlt, hne, hnew, hfree⟩ := pickDonor_some hask.find hpick
    have hnew' : donor.learnerId ∉ (asked (h id)).map Member.learnerId :=
      fun hmem => hnew ((hready.tried _).2 hmem)
    refine hask.move (hready.asked donor (now + cfg.donorTimeout)) rfl
      ⟨hready.attempts ▸ hlt, hnew', hne, hready.undegraded⟩
      (.inl ⟨donor, _, rfl, rfl⟩) (if_pos hself)
      (fun x hx => if_neg (hother x hx)) fun d m t v hmem => ?_
    cases mem_singleton.1 hmem
    exact (find_insert_ne _ _ hne).trans hfree
  | none =>
    refine hask.move (hready.offered .degraded (r.versions.map fun _ => 0)) rfl
      trivial (.inr ⟨.degraded, _, rfl, rfl⟩) (if_pos hself)
      (fun x hx => if_neg (hother x hx)) fun d m t v hmem => ?_
    cases mem_singleton.1 hmem

theorem Asking.ask_moves (hask : Asking cfg s h id r) {donor : Option Member} (now : Nat) :
    ∃ r' e, (s.ask cfg id donor now).2.pending.find id = some r' ∧ r'.member = r.member
      ∧ noted h (s.ask cfg id donor now).1 id = h id ++ [e] ∧ Settles r' e := by
  have hself : r.member.learnerId = id := hask.ready.member
  have hone : ∀ {msg : Member × RecoveryMsg} {e : RecoveryEvent},
      eventFor id msg = some e → noted h [msg] id = h id ++ [e] := by
    intro msg e he
    unfold noted
    rw [filterMap_cons_some he]
    rfl
  unfold PeerRecovery.ask
  rw [hask.find]
  cases donor with
  | some donor =>
    exact ⟨_, .asked donor, find_insert_self .., rfl,
      hone (if_pos hself), .inl ⟨donor, _, rfl, rfl⟩⟩
  | none =>
    exact ⟨_, .offered .degraded (r.versions.map fun _ => 0),
      find_insert_self .., rfl, hone (if_pos hself), .inr ⟨.degraded, _, rfl, rfl⟩⟩

section

variable (hok : MachineOk cfg s h)
include hok

theorem MachineOk.asking (hr : s.pending.find id = some r)
    (hphase : r.phase ≠ .awaitRestore .degraded) : Asking cfg s h id r :=
  ⟨hok.histories, fun x q _ hq => hok.pending x q hq, hr, (hok.pending id r hr).askOk hphase⟩

theorem MachineOk.nextDonor (hr : s.pending.find id = some r)
    (hphase : r.phase ≠ .awaitRestore .degraded) (candidates : List Candidate) (now : Nat) :
    CallOk cfg (fun x q => x = id ∧ q = r) s h (s.nextDonor cfg id candidates now) :=
  (hok.asking hr hphase).ask candidates now

omit hok in
theorem nextDonors_cons (ids : List U32) (candidates : List Candidate) (now : Nat) :
    s.nextDonors cfg (id :: ids) candidates now = let first := s.nextDonor cfg id candidates now
        let rest := first.2.nextDonors cfg ids candidates now
        (first.1 ++ rest.1, rest.2) := by
  -- The messages collected so far stay in front.
  have hfold : ∀ (ids : List U32) (out : List (Member × RecoveryMsg)) (s : PeerRecovery),
      ids.foldl (fun acc id =>
        let next := acc.2.nextDonor cfg id candidates now
        (acc.1 ++ next.1, next.2)) (out, s) = (out ++ (s.nextDonors cfg ids candidates now).1,
          (s.nextDonors cfg ids candidates now).2) := by
    intro ids
    induction ids with intro out s
    | nil => exact Prod.ext (append_nil out).symm rfl
    | cons x ids ih =>
      unfold nextDonors
      rw [foldl_cons, foldl_cons]
      rw [ih, ih]
      rw [nil_append, append_assoc]
  unfold nextDonors
  rw [foldl_cons]
  rw [hfold]
  rfl

omit hok in
theorem MachineOk.nextDonors {ids : List U32} (hnodup : ids.Nodup)
    (candidates : List Candidate) (now : Nat) :
    ∀ {s : PeerRecovery} {h : U32 → List RecoveryEvent}, MachineOk cfg s h →
      (∀ x ∈ ids, ∃ q, s.pending.find x = some q ∧ q.phase ≠ .awaitRestore .degraded) →
      CallOk cfg (fun x _ => x ∈ ids) s h (s.nextDonors cfg ids candidates now) := by
  induction ids with
  | nil =>
    intro s h hok _
    exact hok.idle _
  | cons id ids ih =>
    intro s h hok hids
    obtain ⟨hnot, hrest⟩ := nodup_cons.1 hnodup
    obtain ⟨r, hr, hphase⟩ := hids id (mem_cons_self ..)
    have hfirst := hok.nextDonor hr hphase candidates now
    rw [nextDonors_cons]
    dsimp only
    generalize s.nextDonor cfg id candidates now = first at hfirst ⊢
    -- The recoveries still to come are as they were.
    have hsame : ∀ x ≠ id, first.2.pending.find x = s.pending.find x ∧ noted h first.1 x = h x := by
      intro x hx
      rcases hfirst.moves x with hsame | ⟨_, _, _, _, hmoved, _⟩
      · exact hsame
      · exact absurd hmoved.1 hx
    have hsecond := ih hrest hfirst.machine fun x hx => by
      obtain ⟨q, hq, hphase⟩ := hids x (mem_cons_of_mem _ hx)
      refine ⟨q, ?_, hphase⟩
      rw [(hsame x fun heq => hnot (heq ▸ hx)).1]
      exact hq
    refine ⟨?_, fun x => ?_, ?_⟩
    · rw [noted_append]
      exact hsecond.machine
    · rw [noted_append]
      rcases hsecond.moves x with ⟨hfind, hhist⟩ | ⟨q, q', e, hq, hmem, hq',
        hmember, hhist, hsettles⟩
      · rcases hfirst.moves x with ⟨hfind', hhist'⟩ | ⟨q, q', e, hq, ⟨rfl, _⟩, hq', hrest'⟩
        · exact .inl ⟨hfind.trans hfind', hhist.trans hhist'⟩
        · refine .inr ⟨q, q', e, hq, mem_cons_self .., ?_, hrest'.1, ?_, hrest'.2.2⟩
          · exact hfind.trans hq'
          · exact hhist.trans hrest'.2.1
      · obtain ⟨hfind', hhist'⟩ := hsame x fun heq => hnot (heq ▸ hmem)
        refine .inr ⟨q, q', e, hfind' ▸ hq, mem_cons_of_mem _ hmem, hq', hmember, ?_, hsettles⟩
        rw [hhist, hhist']
    · intro d m t v hmem
      rcases mem_append.1 hmem with hmem | hmem
      · have hnone := hfirst.free d m t v hmem
        rcases hsecond.moves d.learnerId with hsame | ⟨q, _, _, hq, _⟩
        · exact hsame.1.trans hnone
        · rw [hnone] at hq
          cases hq
      · exact hsecond.free d m t v hmem

theorem MachineOk.begin (member : Member) (step : Nat) (versions : List Nat)
    (candidates : List Candidate) (now : Nat) :
    let h' := update h member.learnerId [.began member step versions]
    let out := s.begin cfg member step versions candidates now
    MachineOk cfg out.2 (noted h' out.1) ∧ FreeDonors out.2 out.1
    ∧ (∀ x ≠ member.learnerId, out.2.pending.find x = s.pending.find x ∧ noted h' out.1 x = h x)
    ∧ ∃ r e, out.2.pending.find member.learnerId = some r ∧ r.member = member
      ∧ noted h' out.1 member.learnerId = [.began member step versions, e] ∧ Settles r e := by
  intro h' out
  let r : Recovering := {
    member, step, versions, phase := .awaitRestore .degraded
    tried := [], attempts := 0 }
  let s₁ : PeerRecovery := ⟨s.pending.insert member.learnerId r⟩
  have hself : h' member.learnerId = [.began member step versions] := update_self ..
  have hother : ∀ x ≠ member.learnerId, h' x = h x := fun x hx => update_of_ne hx ..
  have hasking : Asking cfg s₁ h' member.learnerId r := by
    refine ⟨(forall_update_iff h (HistoryOk cfg)).2
        ⟨historyOk_nil.concat trivial, fun x _ => hok.histories x⟩,
      fun x q hx hq => ?_, find_insert_self .., ?_⟩
    · rw [hother x hx]
      rw [find_insert_ne _ _ hx] at hq
      exact hok.pending x q hq
    · rw [hself]
      refine ⟨rfl, rfl, fun x => Iff.rfl, rfl, fun versions hmem => ?_⟩
      cases mem_singleton.1 hmem
  have hask := hasking.ask candidates now
  -- The clock comes first, and is no event of a recovery.
  have hout : out.2 = (s₁.ask cfg member.learnerId
        (s₁.pickDonor cfg member.learnerId candidates) now).2
      ∧ ∀ k, noted k out.1 = noted k (s₁.ask cfg member.learnerId
        (s₁.pickDonor cfg member.learnerId candidates) now).1 := ⟨rfl, fun _ => rfl⟩
  have hfree : FreeDonors out.2 out.1 := by
    intro d m t v hmem
    rcases mem_cons.1 hmem with heq | hmem
    · cases heq
    · exact hask.free d m t v hmem
  rw [hout.1] at hfree ⊢
  rw [hout.2]
  refine ⟨hask.machine, hfree, fun x hx => ?_, ?_⟩
  · rcases hask.moves x with hsame | ⟨_, _, _, _, hmoved, _⟩
    · exact ⟨hsame.1.trans (find_insert_ne _ _ hx), hsame.2.trans (hother x hx)⟩
    · exact absurd hmoved.1 hx
  · obtain ⟨r', e, hfind, hmember, hhist, hsettles⟩ := hasking.ask_moves now
    rw [hself] at hhist
    exact ⟨r', e, hfind, hmember, hhist, hsettles⟩

theorem MachineOk.onSnapshotReady (sender : Member) (ready : SnapshotReady)
    (hlen : ∀ r, s.pending.find ready.recovering.learnerId = some r →
      ready.versions.length = r.versions.length) (candidates : List Candidate) (now : Nat) :
    CallOk cfg (fun _ q => q.donor.isSome) s h
      (s.onSnapshotReady cfg sender ready candidates now) := by
  dsimp only [PeerRecovery.onSnapshotReady]
  cases hr : s.pending.find ready.recovering.learnerId with
  | none => exact hok.idle _
  | some r =>
    dsimp only
    split
    · exact hok.idle _
    next hmine =>
    rw [not_or, not_not, not_not] at hmine
    obtain ⟨-, hdonor⟩ := hmine
    obtain ⟨deadline, hphase⟩ : ∃ deadline, r.phase = .awaitSnapshot sender deadline := by
      unfold donor at hdonor
      split at hdonor <;> cases hdonor
      next d deadline heq => exact ⟨deadline, heq⟩
    have hne : r.phase ≠ .awaitRestore .degraded := by
      rw [hphase]
      nofun
    have himp : ∀ x q, x = ready.recovering.learnerId ∧ q = r → q.donor.isSome := by
      rintro x q ⟨-, rfl⟩
      rw [hdonor]
      rfl
    split
    · exact (hok.nextDonor hr hne candidates now).imp himp
    next hbehind =>
    have hasking := hok.asking hr hne
    have hself := hasking.ready.member
    have hlast := (hok.pending _ r hr).waits sender deadline hphase
    have hcover : List.Forall₂ (· ≤ ·) r.versions ready.versions := by
      refine List.Forall₂.flip (forall₂_iff_zip.2 ⟨hlen r hr, fun {a b} hmem => ?_⟩)
      by_contra hlt
      exact hbehind (any_eq_true.2 ⟨(a, b), hmem, decide_eq_true (not_le.1 hlt)⟩)
    refine CallOk.imp (hasking.move (hasking.ready.offered (.peer sender) ready.versions) rfl
      ⟨hlast, _, _, _, hasking.ready.began, hcover⟩ (.inr ⟨_, _, rfl, rfl⟩) (if_pos hself)
      (fun x hx => if_neg fun heq => hx (heq.symm.trans hself)) fun d m t v hmem => ?_) himp
    cases mem_singleton.1 hmem

theorem MachineOk.onFailed (sender : Member) (candidates : List Candidate) (now : Nat) :
    CallOk cfg (fun x q => x = sender.learnerId ∧ q.member = sender) s h
      (s.onFailed cfg sender candidates now) := by
  unfold PeerRecovery.onFailed
  cases hr : s.pending.find sender.learnerId with
  | none => exact hok.idle _
  | some r =>
    dsimp only
    split
    · exact hok.idle _
    · next hmine =>
      rw [not_or, not_not] at hmine
      refine (hok.nextDonor hr hmine.2 candidates now).imp ?_
      rintro x q ⟨rfl, rfl⟩
      exact ⟨rfl, hmine.1⟩

theorem MachineOk.waiting {waits : U32 × Recovering → Bool}
    (hwaits : ∀ e, waits e = true → e.2.donor.isSome) (candidates : List Candidate) (now : Nat) :
    CallOk cfg (fun _ q => q.donor.isSome) s h
      (s.nextDonors cfg ((s.pending.entries.filter waits).map Prod.fst) candidates now) := by
  have hmem : ∀ x ∈ (s.pending.entries.filter waits).map Prod.fst,
      ∃ q, s.pending.find x = some q ∧ q.donor.isSome := by
    intro x hx
    obtain ⟨⟨y, q⟩, hy, rfl⟩ := mem_map.1 hx
    obtain ⟨hentry, hw⟩ := mem_filter.1 hy
    exact ⟨q, (mem_entries_iff ..).1 hentry, hwaits _ hw⟩
  have hnodup : ((s.pending.entries.filter waits).map Prod.fst).Nodup :=
    s.pending.nodup_keys.sublist (filter_sublist.map _)
  have hcall := hok.nextDonors hnodup candidates now fun x hx => by
    obtain ⟨q, hq, hdonor⟩ := hmem x hx
    refine ⟨q, hq, fun heq => ?_⟩
    unfold donor at hdonor
    rw [heq] at hdonor
    cases hdonor
  refine ⟨hcall.machine, fun x => ?_, hcall.free⟩
  rcases hcall.moves x with hsame | ⟨q, q', e, hq, hx, hrest⟩
  · exact .inl hsame
  · obtain ⟨q₁, hq₁, hdonor⟩ := hmem x hx
    rw [hq₁] at hq
    cases hq
    exact .inr ⟨q, q', e, hq₁, hdonor, hrest⟩

theorem MachineOk.onTick (candidates : List Candidate) (now : Nat) :
    CallOk cfg (fun _ q => q.donor.isSome) s h (s.onTick cfg candidates now) := by
  refine hok.waiting (fun e he => ?_) candidates now
  unfold donor
  split
  · rfl
  · next heq =>
    rw [heq] at he
    cases he

theorem MachineOk.erase (id : U32) : MachineOk cfg ⟨s.pending.erase id⟩ h := by
  refine ⟨hok.histories, fun x q hq => hok.pending x q ?_⟩
  exact (find_erase_cases hq).2

theorem MachineOk.onGone (member : Member) (candidates : List Candidate) (now : Nat) :
    ∃ s₁, (s₁ = s ∨ s.isPending member = true
        ∧ s₁ = ⟨s.pending.erase member.learnerId⟩) ∧ CallOk cfg (fun _ q => q.donor.isSome) s₁ h
        (s.onGone cfg member candidates now) := by
  have hwaits : ∀ e : U32 × Recovering,
      decide (e.2.donor = some member) = true → e.2.donor.isSome := by
    intro e he
    rw [of_decide_eq_true he]
    rfl
  unfold PeerRecovery.onGone
  split
  · next hpend => exact ⟨_, .inr ⟨hpend, rfl⟩, (hok.erase _).waiting hwaits candidates now⟩
  · exact ⟨s, .inl rfl, hok.waiting hwaits candidates now⟩

end

end Call

end Yeto.Server
