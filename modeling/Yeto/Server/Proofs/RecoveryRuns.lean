/-
Whole runs of peer recovery: what holds of every history, and how a recovery
ends.

That an offer stands and that a promoted island is told needs islands that do
not take back what they reported (`faithful`): then a replay under way belongs
to a recovery in its last phase (`RunOk`), which `finish` completes. Otherwise
RECOVERY_DONE may never be sent (`promoted_without_done`).
-/
import Yeto.Server.Proofs.Commits
import Yeto.Server.Proofs.Recoveries

namespace Yeto.Server

open Lib List SortedMap Option Function PeerRecovery

variable {e : RecoveryEvent} {member : Member} {op : RecoveryOp} {replayed : Nat} {r : Recovering}
  {kind : SourceKind} {versions : List Nat} {doneStep : Nat} {a : RecoveryEvent} {id : U32}

section Runs

variable {cfg : Config} {s : PeerRecovery} {h : U32 → List RecoveryEvent} {w w' : Recoveries}

/-- An event that is about how a recovery ends. -/
def Quiet (e : RecoveryEvent) : Prop := e = .refused ∨ e = .restored ∨ e = .promoted ∨ e = .done

theorem Quiet.asked (he : Quiet e) (k : List RecoveryEvent) : asked (k ++ [e]) = asked k := by
  rw [asked_append]
  rcases he with rfl | rfl | rfl | rfl <;> exact append_nil _

theorem Quiet.eventOk (he : Quiet e) {k : List RecoveryEvent} : EventOk cfg id k e := by
  rcases he with rfl | rfl | rfl | rfl <;> trivial

theorem MachineOk.note (hok : MachineOk cfg s h) (he : Quiet e) (id : U32) :
    MachineOk cfg s (update h id (h id ++ [e])) := by
  refine ⟨(forall_update_iff h (HistoryOk cfg)).2
      ⟨(hok.histories id).concat he.eventOk, fun x _ => hok.histories x⟩,
    (forall_update_iff h fun x k => ∀ r, s.pending.find x = some r →
      PendingOk cfg x r k).2 ⟨fun r hr => ?_, fun x _ => hok.pending x⟩⟩
  have hold := hok.pending id r hr
  refine ⟨hold.member, head?_concat hold.began, ?_, ?_,
    fun hphase versions hmem => ?_, ?_, fun kind hkind => ?_⟩
  · rw [he.asked]
    exact hold.tried
  · rw [he.asked]
    exact hold.attempts
  · rcases mem_snoc.1 hmem with hmem | rfl
    · exact hold.undegraded hphase versions hmem
    · rcases he with he | he | he | he <;> cases he
  · rw [he.asked]
    exact hold.waits
  · obtain ⟨versions, hmem⟩ := hold.offered kind hkind
    exact ⟨versions, mem_append_left _ hmem⟩

theorem finish_cases (replayed : Nat) : ((s.finish member doneStep versions replayed) = (none, s)
      ∧ ∀ r, s.pending.find member.learnerId = some r → r.member ≠ member)
    ∨ ∃ r, s.pending.find member.learnerId = some r ∧ r.member = member
      ∧ (s.finish member doneStep versions replayed).2 = ⟨s.pending.erase member.learnerId⟩
      ∧ (s.finish member doneStep versions replayed).1 = if r.donor.isSome then none
          else some (.done r.step doneStep replayed versions) := by
  unfold finish
  cases hr : s.pending.find member.learnerId with
  | none => exact .inl ⟨rfl, nofun⟩
  | some r =>
    dsimp only
    split
    · next hne =>
      refine .inl ⟨rfl, ?_⟩
      rintro r' heq
      cases heq
      exact hne
    · next heq => exact .inr ⟨r, rfl, not_not.1 heq, rfl, rfl⟩

theorem finish_done {done : RecoveryMsg}
    (hdone : (s.finish member doneStep versions replayed).1 = some done) :
    ∃ step, done = .done step doneStep replayed versions := by
  rcases finish_cases replayed with
    ⟨heq, -⟩ | ⟨r, -, -, -, heq⟩ <;> rw [heq] at hdone
  · cases hdone
  · split at hdone <;> cases hdone
    exact ⟨_, rfl⟩

theorem MachineOk.finish (hok : MachineOk cfg s h) (member : Member)
    (doneStep : Nat) (versions : List Nat) (replayed : Nat) :
    MachineOk cfg (s.finish member doneStep versions replayed).2 h := by
  rcases finish_cases replayed with
    ⟨heq, -⟩ | ⟨r, -, -, heq, -⟩ <;> rw [heq]
  · exact hok
  · exact hok.erase _

theorem noted_done (h : U32 → List RecoveryEvent) {step : Nat} (versions : List Nat) :
    noted h [(member, .done step doneStep replayed versions)]
      = update h member.learnerId (h member.learnerId ++ [.done]) :=
  noted_singleton h member.learnerId (if_pos rfl) fun _ hx => if_neg (Ne.symm hx)

theorem MachineOk.step (hok : MachineOk cfg w.recovery w.history)
    (hexec : w.exec cfg op = some w') : MachineOk cfg w'.recovery w'.history
    ∧ FreeDonors w'.recovery (w.call cfg op).1 := by
  cases op with
  | register | close =>
    cases hexec
    exact ⟨hok, nofun⟩
  | begin member step versions candidates now =>
    obtain ⟨-, hexec⟩ := ite_none_right_eq_some.1 hexec
    split at hexec
    · next hrec =>
      cases hexec
      dsimp only [Recoveries.call, Recoveries.answer, Recoveries.opened]
      rw [if_pos hrec]
      obtain ⟨hmachine, hfree, -⟩ := hok.begin member step versions candidates now
      exact ⟨hmachine, hfree⟩
    · next hrec =>
      cases hexec
      refine ⟨hok, ?_⟩
      dsimp only [Recoveries.call]
      rw [if_neg hrec]
      nofun
  | snapshotReady sender ready candidates now =>
    obtain ⟨hlen, rfl⟩ := of_guard hexec
    have hcall := hok.onSnapshotReady sender ready (fun r hr => by
        rw [hr] at hlen
        exact of_decide_eq_true hlen) candidates now
    exact ⟨hcall.machine, hcall.free⟩
  | failed sender candidates now =>
    cases hexec
    split
    · have hcall := (hok.note (.inl rfl) sender.learnerId).onFailed sender candidates now
      exact ⟨hcall.machine, hcall.free⟩
    · have hcall := hok.onFailed sender candidates now
      exact ⟨hcall.machine, hcall.free⟩
  | gone member candidates now =>
    obtain ⟨-, hexec⟩ := ite_none_left_eq_some.1 hexec
    cases hexec
    obtain ⟨s₁, -, hcall⟩ := hok.onGone member candidates now
    exact ⟨hcall.machine, hcall.free⟩
  | tick candidates now =>
    cases hexec
    have hcall := hok.onTick candidates now
    exact ⟨hcall.machine, hcall.free⟩
  | restored sender held current =>
    dsimp only [Recoveries.exec] at hexec
    split at hexec
    · cases hexec
      exact ⟨hok, nofun⟩
    · cases hexec
      exact ⟨hok.note (.inr (.inl rfl)) _, nofun⟩
  | promote member doneStep versions replayed =>
    obtain ⟨-, rfl⟩ := of_guard hexec
    refine ⟨?_, nofun⟩
    have hfinish := hok.finish member doneStep versions replayed
    dsimp only [Recoveries.promote]
    split
    · have hpromoted := hfinish.note (.inr (.inr (.inl rfl))) member.learnerId
      split
      · exact hpromoted
      · next done hdone =>
        obtain ⟨step, rfl⟩ := finish_done hdone
        rw [noted_done]
        exact hpromoted.note (.inr (.inr (.inr rfl))) _
    · exact hfinish

theorem machineOk_new : MachineOk cfg Recoveries.new.recovery Recoveries.new.history :=
  ⟨fun _ => historyOk_nil, nofun⟩

theorem machineOk_reachable {allowed : Recoveries → RecoveryOp → Bool}
    (hreach : (recoveries cfg allowed).Reachable w) : MachineOk cfg w.recovery w.history :=
  System.guarded_invariant (P := fun w => MachineOk cfg w.recovery w.history)
    machineOk_new (fun _ _ _ hok _ hexec => (hok.step hexec).1) hreach

end Runs

/-- An island that reported a restored source does not refuse it afterwards,
no island refuses the degraded source, and no generation registers twice. -/
def faithful (w : Recoveries) : RecoveryOp → Bool
  | .register member => decide (member ∉ w.registered)
  | .failed sender _ _ =>
    ((w.recovery.pending.find sender.learnerId).all fun r =>
      decide (r.member = sender → r.phase ≠ .awaitRestore .degraded))
    && decide (∀ e ∈ w.replays, e.1 ≠ sender)
  | _ => true

/-- The source was offered, and not refused since. -/
def Standing (kind : SourceKind) (h : List RecoveryEvent) : Prop :=
  ∃ before versions after, h = before ++ .offered kind versions :: after ∧ .refused ∉ after

/-- What an island's history says of its recovery: while it is pending it was
not ended and the offer it waits on stands, and it ends once. -/
structure Ends (o : Option Recovering) (k : List RecoveryEvent) : Prop where
  going : ∀ r, o = some r → .promoted ∉ k ∧ .done ∉ k
  ended : k.count .promoted = k.count .done ∧ k.count .done ≤ 1
  stands : ∀ r kind, o = some r → r.phase = .awaitRestore kind → Standing kind k

/-- A replay of an island that is still registered belongs to a recovery that
waits for nothing else. -/
structure RunOk (w : Recoveries) : Prop where
  hellos : w.hellos.Nodup ∧ ∀ m ∈ w.hellos, m ∈ w.registered
  begun : ∀ id r, w.recovery.pending.find id = some r →
    r.member ∈ w.registered ∧ r.member ∉ w.hellos
  replayed : ∀ e ∈ w.replays, e.1 ∈ w.registered ∧ e.1 ∉ w.hellos
  replays : ∀ e ∈ w.replays, w.recovering.find e.1.learnerId = some e.1 →
    ∃ r, w.recovery.pending.find e.1.learnerId = some r ∧ r.member = e.1 ∧ r.donor = none
  ends : ∀ id, Ends (w.recovery.pending.find id) (w.history id)

section Ends

variable {cfg : Config} {w w' : Recoveries}
  {moved : U32 → Recovering → Prop} {h : U32 → List RecoveryEvent}
  {out : List (Member × RecoveryMsg) × PeerRecovery}

theorem Settles.ne (he : Settles r e) : e ≠ .promoted ∧ e ≠ .done := by
  rcases he with ⟨_, _, rfl, _⟩ | ⟨_, _, rfl, _⟩ <;> exact ⟨nofun, nofun⟩

variable {k : List RecoveryEvent}

theorem notMem_concat (hk : a ∉ k) (he : e ≠ a) : a ∉ k ++ [e] := by
  rw [mem_snoc, not_or]
  exact ⟨hk, Ne.symm he⟩

theorem count_concat (he : e ≠ a) : (k ++ [e]).count a = k.count a := by
  rw [count_append, count_singleton, if_neg (by simpa using he)]
  rfl

theorem Settles.standing (he : Settles r e) (hkind : r.phase = .awaitRestore kind)
    (k : List RecoveryEvent) : Standing kind (k ++ [e]) := by
  rcases he with ⟨_, _, _, hphase⟩ | ⟨kind', versions, rfl, hphase⟩ <;> rw [hphase] at hkind
  · cases hkind
  · cases hkind
    exact ⟨k, versions, [], rfl, not_mem_nil⟩

theorem Standing.concat (hk : Standing kind k) (he : e ≠ .refused) : Standing kind (k ++ [e]) := by
  obtain ⟨before, versions, after, rfl, hnot⟩ := hk
  refine ⟨before, versions, after ++ [e], ?_, notMem_concat hnot he⟩
  rw [append_assoc]
  rfl

theorem Ends.settled (hgoing : .promoted ∉ k ∧ .done ∉ k) (hsettles : Settles r e) :
    Ends (some r) (k ++ [e]) := by
  have hpromoted := notMem_concat hgoing.1 hsettles.ne.1
  have hdone := notMem_concat hgoing.2 hsettles.ne.2
  refine ⟨fun _ _ => ⟨hpromoted, hdone⟩, ?_, fun r' kind hr hkind => ?_⟩
  · rw [count_eq_zero.2 hpromoted, count_eq_zero.2 hdone]
    exact ⟨rfl, Nat.zero_le 1⟩
  · cases hr
    exact hsettles.standing hkind k

theorem Ends.dropped {o : Option Recovering} (h : Ends o k) : Ends none k := ⟨nofun, h.ended, nofun⟩

theorem onRestored_some {s : PeerRecovery} {sender : Member}
    {held : Option (List Nat)} {current replay : List Nat}
    (hres : s.onRestored sender held current = some replay) :
    ∃ r, s.pending.find sender.learnerId = some r ∧ r.member = sender ∧ r.donor = none := by
  unfold onRestored at hres
  cases hr : s.pending.find sender.learnerId with rw [hr] at hres
  | none => cases hres
  | some r =>
    obtain ⟨hmine, hres⟩ := ite_none_left_eq_some.1 hres
    rw [not_or, not_not] at hmine
    exact ⟨r, rfl, hmine.1, not_isSome_iff_eq_none.1 hmine.2⟩

section

variable (hok : RunOk w)
include hok

theorem RunOk.answerEnds (hcall : CallOk cfg moved w.recovery h out)
    (hmoved : ∀ e ∈ w.replays, w.recovering.find e.1.learnerId = some e.1 →
      ∀ r, w.recovery.pending.find e.1.learnerId = some r → ¬ moved e.1.learnerId r)
    (hends : ∀ id, Ends (out.2.pending.find id) (noted h out.1 id)) :
    RunOk ({ w with history := h }.answer out) := by
  refine ⟨hok.hellos, fun id r hr => ?_, hok.replayed, fun e he hrec => ?_, hends⟩
  · rcases hcall.moves id with ⟨hsame, -⟩ | ⟨q, q', e, hq, -, hq', hmem, -⟩
    · exact hok.begun id r (hsame ▸ hr)
    · have hr : out.2.pending.find id = some r := hr
      rw [hq'] at hr
      cases hr
      rw [hmem]
      exact hok.begun id q hq
  · obtain ⟨r, hr, hmem, hdonor⟩ := hok.replays e he hrec
    rcases hcall.moves e.1.learnerId with ⟨hsame, -⟩ | ⟨q, _, _, hq, hmv, _⟩
    · exact ⟨r, hsame.trans hr, hmem, hdonor⟩
    · exact absurd hmv (hmoved e he hrec q hq)

theorem RunOk.answer (hcall : CallOk cfg moved w.recovery w.history out)
    (hmoved : ∀ e ∈ w.replays, w.recovering.find e.1.learnerId = some e.1 →
      ∀ r, w.recovery.pending.find e.1.learnerId = some r →
        ¬ moved e.1.learnerId r) : RunOk (w.answer out) := by
  refine hok.answerEnds hcall hmoved fun id => ?_
  rcases hcall.moves id with ⟨hsame, hhist⟩ | ⟨q, _, e, hq, _, hq', _, hhist, hsettles⟩
  · rw [hsame, hhist]
    exact hok.ends id
  · rw [hq', hhist]
    exact .settled ((hok.ends id).going q hq) hsettles

theorem RunOk.note (id : U32) (e : RecoveryEvent) (hpromoted : e ≠ .promoted) (hdone : e ≠ .done)
    (hrefused : e ≠ .refused) : RunOk (w.note id e) := by
  have hold := hok.ends id
  refine { hok with
    ends := (forall_update_iff w.history fun x =>
      Ends (w.recovery.pending.find x)).2 ⟨⟨fun r hr => ?_, ?_, fun r kind hr hkind =>
        (hold.stands r kind hr hkind).concat hrefused⟩, fun x _ => hok.ends x⟩ }
  · exact ⟨notMem_concat (hold.going r hr).1 hpromoted, notMem_concat (hold.going r hr).2 hdone⟩
  · rw [count_concat hpromoted, count_concat hdone]
    exact hold.ended

theorem RunOk.drop (hr : w.recovery.pending.find member.learnerId = some r)
    (hmem : r.member = member) (hnot : ¬ w.recovering.find member.learnerId = some member) :
    RunOk { w with
      recovery := ⟨w.recovery.pending.erase member.learnerId⟩ } := by
  refine ⟨hok.hellos, fun x r hr =>
      hok.begun x r (find_erase_cases hr).2, hok.replayed, fun e he hrec => ?_, fun x => ?_⟩
  · obtain ⟨q, hq, hmine, hdonor⟩ := hok.replays e he hrec
    have hne : e.1.learnerId ≠ member.learnerId := by
      intro hid
      rw [hid] at hq hrec
      cases hr.symm.trans hq
      rw [← hmine, hmem] at hrec
      exact hnot hrec
    exact ⟨q, (find_erase_ne _ hne).trans hq, hmine, hdonor⟩
  · rw [find_erase]
    split
    · exact (hok.ends x).dropped
    · exact hok.ends x

theorem RunOk.greeted (member : Member) : RunOk { w with hellos := w.hellos.erase member } := by
  have hsub : ∀ x, x ∉ w.hellos → x ∉ w.hellos.erase member :=
    fun x hx hmem => hx (mem_of_mem_erase hmem)
  exact { hok with
    hellos := ⟨hok.hellos.1.erase _, fun m hm =>
      hok.hellos.2 m (mem_of_mem_erase hm)⟩
    begun := fun id r hr => (hok.begun id r hr).imp_right (hsub _)
    replayed := fun e he => (hok.replayed e he).imp_right (hsub _) }

theorem RunOk.begin (hmachine : MachineOk cfg w.recovery w.history) (hello : member ∈ w.hellos)
    (hrec : w.recovering.find member.learnerId = some member) (step : Nat) (versions : List Nat)
    (candidates : List Candidate) (now : Nat) :
    RunOk (({ w with hellos := w.hellos.erase member }.opened member step
      versions).answer (w.recovery.begin cfg member step versions candidates now)) := by
  obtain ⟨-, -, hother, r, e, hr, hmember, hhist, hsettles⟩ :=
    hmachine.begin member step versions candidates now
  have hless := hok.greeted member
  refine ⟨hless.hellos, fun id q hq => ?_, hless.replayed, fun e' he' hrec' => ?_, fun id => ?_⟩
  · by_cases hid : id = member.learnerId
    · subst hid
      cases hr.symm.trans hq
      rw [hmember]
      exact ⟨hok.hellos.2 member hello, fun hmem => (List.Nodup.not_mem_erase hok.hellos.1) hmem⟩
    · exact hless.begun id q ((hother id hid).1.symm.trans hq)
  · by_cases hid : e'.1.learnerId = member.learnerId
    · have hrec' : w.recovering.find e'.1.learnerId = some e'.1 := hrec'
      rw [hid, hrec] at hrec'
      cases hrec'
      exact absurd hello (hok.replayed e' he').2
    · obtain ⟨q, hq, hrest⟩ := hok.replays e' he' hrec'
      exact ⟨q, (hother _ hid).1.trans hq, hrest⟩
  · dsimp only [Recoveries.answer, Recoveries.opened]
    by_cases hid : id = member.learnerId
    · subst hid
      rw [hr, hhist]
      exact Ends.settled (k := [.began member step versions]) ⟨by simp, by simp⟩ hsettles
    · rw [(hother id hid).1, (hother id hid).2]
      exact hok.ends id

theorem RunOk.promote (hmem : (member, replayed) ∈ w.replays) (doneStep : Nat)
    (versions : List Nat) : RunOk (w.promote member doneStep versions replayed) := by
  have hsub : ∀ e ∈ w.replays.erase (member, replayed), e ∈ w.replays :=
    fun e he => mem_of_mem_erase he
  dsimp only [Recoveries.promote]
  split
  · next hrec =>
    obtain ⟨r, hr, hmember, hdonor⟩ := hok.replays _ hmem hrec
    rcases finish_cases replayed with
      ⟨-, hnot⟩ | ⟨r', hr', -, hrest, hdone⟩
    · exact absurd hmember (hnot r hr)
    · cases hr.symm.trans hr'
      rw [hdonor] at hdone
      rw [hdone, hrest]
      dsimp only [isSome_none]
      rw [if_neg Bool.false_ne_true]
      dsimp only [Recoveries.note]
      rw [noted_done, update_self, update_idem]
      have hgoing := (hok.ends _).going r hr
      refine ⟨hok.hellos, fun x q hq =>
          hok.begun x q (find_erase_cases hq).2,
        fun e he => hok.replayed e (hsub e he), fun e he hrec' => ?_, fun x => ?_⟩
      · obtain ⟨hx, hrec'⟩ := find_erase_cases hrec'
        obtain ⟨q, hq, hrest'⟩ := hok.replays e (hsub e he) hrec'
        exact ⟨q, (find_erase_ne _ hx).trans hq, hrest'⟩
      · dsimp only
        by_cases hx : x = member.learnerId
        · subst hx
          have hpromoted := count_eq_zero.2 hgoing.1
          have hdone := count_eq_zero.2 hgoing.2
          rw [update_self, find_erase_self]
          refine ⟨nofun, ?_, nofun⟩
          simp only [count_append, hpromoted, hdone]
          decide
        · rw [update_of_ne hx, find_erase_ne _ hx]
          exact hok.ends x
  · next hrec =>
    have hless : RunOk { w with
        replays := w.replays.erase (member, replayed) } := { hok with
        replayed := fun e he => hok.replayed e (hsub e he)
        replays := fun e he => hok.replays e (hsub e he) }
    rcases finish_cases replayed with
      ⟨heq, -⟩ | ⟨r, hr, hmember, heq, -⟩ <;> rw [heq]
    · exact hless
    · exact hless.drop hr hmember hrec

theorem RunOk.waiting : ∀ e ∈ w.replays, w.recovering.find e.1.learnerId = some e.1 →
    ∀ r, w.recovery.pending.find e.1.learnerId = some r → ¬ (r.donor.isSome = true) := by
  intro e he hrec r hr
  obtain ⟨q, hq, -, hdonor⟩ := hok.replays e he hrec
  cases hr.symm.trans hq
  rw [hdonor]
  decide

end

theorem RunOk.step (hok : RunOk w) (hmachine : MachineOk cfg w.recovery
    w.history) (hfaith : faithful w op = true) (hexec : w.exec cfg op = some w') : RunOk w' := by
  cases op with
  | register member =>
    cases hexec
    have hnew : member ∉ w.registered := of_decide_eq_true hfaith
    have hne : ∀ m ∈ w.registered, m ≠ member := by
      rintro m hm rfl
      exact hnew hm
    have hkept : ∀ m, m ∈ w.registered ∧ m ∉ w.hellos →
        m ∈ member :: w.registered ∧ m ∉ w.hellos ++ [member] := by
      rintro m ⟨hreg, hnot⟩
      refine ⟨mem_cons_of_mem _ hreg, ?_⟩
      rw [mem_append, mem_singleton, not_or]
      exact ⟨hnot, hne _ hreg⟩
    refine { hok with
      hellos := ⟨?_, ?_⟩, begun := fun id r hr => hkept _ (hok.begun id r hr)
      replayed := fun e he => hkept _ (hok.replayed e he)
      replays := fun e he hrec => ?_ }
    · refine nodup_append.2 ⟨hok.hellos.1, nodup_singleton _, ?_⟩
      intro a ha b hb
      rw [mem_singleton.1 hb]
      exact hne a (hok.hellos.2 a ha)
    · intro m hm
      rcases mem_snoc.1 hm with hm | rfl
      · exact mem_cons_of_mem _ (hok.hellos.2 m hm)
      · exact mem_cons_self
    · obtain ⟨-, heq⟩ | ⟨-, hrec⟩ := find_insert_cases hrec
      · exact absurd heq (hne _ (hok.replayed e he).1)
      · exact hok.replays e he hrec
  | close member =>
    cases hexec
    refine { hok with replays := fun e he hrec => ?_ }
    refine hok.replays e he ?_
    unfold RegistryState.removeSame at hrec
    split at hrec
    · exact (find_erase_cases hrec).2
    · exact hrec
  | begin member step versions candidates now =>
    obtain ⟨hello, hexec⟩ := ite_none_right_eq_some.1 hexec
    split at hexec
    · next hrec =>
      cases hexec
      dsimp only [Recoveries.call]
      rw [if_pos hrec]
      exact hok.begin hmachine hello hrec step versions candidates now
    · cases hexec
      exact hok.greeted member
  | snapshotReady sender ready candidates now =>
    obtain ⟨hlen, rfl⟩ := of_guard hexec
    refine hok.answer (hmachine.onSnapshotReady sender ready
      (fun r hr => ?_) candidates now) hok.waiting
    rw [hr] at hlen
    exact of_decide_eq_true hlen
  | failed sender candidates now =>
    cases hexec
    dsimp only [faithful] at hfaith
    rw [Bool.and_eq_true, decide_eq_true_iff] at hfaith
    -- What is moved is the sender's, which has no replay under way.
    have hmoved : ∀ e ∈ w.replays, w.recovering.find e.1.learnerId = some e.1 →
        ∀ r, w.recovery.pending.find e.1.learnerId = some r →
          ¬ (e.1.learnerId = sender.learnerId ∧ r.member = sender) := by
      rintro e he hrec r hr ⟨-, hsender⟩
      obtain ⟨q, hq, hmember, -⟩ := hok.replays e he hrec
      cases hr.symm.trans hq
      exact hfaith.2 e he (hmember.symm.trans hsender)
    split
    · next hpend =>
      have hnoted := hmachine.note (.inl rfl) sender.learnerId
      have hcall := hnoted.onFailed sender candidates now
      have hdone := hok.answerEnds hcall hmoved fun id => ?_
      · exact hdone
      by_cases hid : id = sender.learnerId
      · subst hid
        -- the refused offer is not waited on any more
        obtain ⟨q, hq, hmine⟩ := (any_eq_true _ _).1 hpend
        have hmine := of_decide_eq_true hmine
        rw [hq] at hfaith
        have hphase : q.phase ≠ .awaitRestore .degraded := of_decide_eq_true hfaith.1 hmine
        have hasking := hnoted.asking hq hphase
        obtain ⟨r', e, hr', -, hhist, hsettles⟩ := hasking.ask_moves now
        have hfailed : w.recovery.onFailed cfg sender candidates now
            = w.recovery.nextDonor cfg sender.learnerId candidates now := by
          unfold onFailed
          rw [hq]
          exact if_neg (not_or.2 ⟨not_not.2 hmine, hphase⟩)
        rw [hfailed]
        unfold nextDonor
        rw [hr', hhist, update_self]
        have hgoing := (hok.ends _).going q hq
        exact .settled ⟨notMem_concat hgoing.1 nofun, notMem_concat hgoing.2 nofun⟩ hsettles
      · rcases hcall.moves id with ⟨hsame, hhist⟩ | ⟨_, _, _, _, hmv, _⟩
        · rw [hsame, hhist, update_of_ne hid]
          exact hok.ends id
        · exact absurd hmv.1 hid
    · exact hok.answer (hmachine.onFailed sender candidates now) hmoved
  | gone member candidates now =>
    obtain ⟨hnot, hexec⟩ := ite_none_left_eq_some.1 hexec
    cases hexec
    obtain ⟨s₁, hs₁, hcall⟩ := hmachine.onGone member candidates now
    rcases hs₁ with rfl | ⟨hpend, rfl⟩
    · exact hok.answer hcall hok.waiting
    · obtain ⟨r, hr, hmember⟩ := (any_eq_true _ _).1 hpend
      have hdrop := hok.drop hr (of_decide_eq_true hmember) hnot
      exact hdrop.answer hcall hdrop.waiting
  | tick candidates now =>
    cases hexec
    exact hok.answer (hmachine.onTick candidates now) hok.waiting
  | restored sender held current =>
    dsimp only [Recoveries.exec] at hexec
    split at hexec
    · cases hexec
      exact hok
    next replay hres =>
    cases hexec
    obtain ⟨r, hr, hmember, hdonor⟩ := onRestored_some hres
    refine RunOk.note ?_ sender.learnerId .restored nofun nofun nofun
    obtain ⟨hreg, hnot⟩ := hok.begun _ r hr
    rw [hmember] at hreg hnot
    refine ⟨hok.hellos, hok.begun, fun e he => ?_, fun e he hrec => ?_, hok.ends⟩
      <;> rcases mem_snoc.1 he with he | rfl
    · exact hok.replayed e he
    · exact ⟨hreg, hnot⟩
    · exact hok.replays e he hrec
    · exact ⟨r, hr, hmember, hdonor⟩
  | promote member doneStep versions replayed =>
    obtain ⟨hmem, rfl⟩ := of_guard hexec
    exact hok.promote hmem doneStep versions

theorem runOk_new : RunOk .new := ⟨⟨nodup_nil, nofun⟩, nofun, nofun, nofun,
    fun _ => ⟨nofun, ⟨rfl, Nat.zero_le 1⟩, nofun⟩⟩

theorem runOk_reachable (h : (recoveries cfg faithful).Reachable w) : RunOk w := by
  have hall := System.guarded_invariant (P := fun w => MachineOk cfg w.recovery w.history ∧ RunOk w)
    ⟨machineOk_new, runOk_new⟩ (fun _ _ _ hok hfaith hexec => ⟨(hok.1.step hexec).1,
      hok.2.step hok.1 hfaith hexec⟩) h
  exact hall.2

/-- What every history of a recovery is like: few donors, all different and
never the island itself; a peer source only from the donor asked last, and
not older than the clock; no donor after the degraded source. -/
structure Lawful (cfg : Config) (id : U32) (h : List RecoveryEvent) : Prop where
  few : (asked h).length ≤ cfg.maxDonorTries
  distinct : ((asked h).map Member.learnerId).Nodup
  other : id ∉ (asked h).map Member.learnerId
  peer : ∀ before donor versions after, h = before ++ .offered (.peer donor) versions :: after →
    (asked before).getLast? = some donor
    ∧ ∃ member step clock, before.head? = some (.began member step clock)
      ∧ List.Forall₂ (· ≤ ·) clock versions
  degraded : ∀ before versions after,
    h = before ++ .offered .degraded versions :: after → asked after = []

theorem HistoryOk.lawful (hok : HistoryOk cfg id k) : Lawful cfg id k := by
  obtain ⟨hfew, hdistinct, hother⟩ := hok.donors
  exact ⟨hfew, hdistinct, hother, fun _ _ _ _ heq => hok.peer heq,
    fun _ _ _ heq => hok.degraded heq⟩

/-- PEER RECOVERY. In every run each history is lawful, no island under
recovery is asked, and a pending recovery waits for a donor, with a deadline,
or for its island, which was sent a source. In a faithful run that source
was not refused since, and an island that is promoted is told so exactly
once. -/
theorem peer_recovery (cfg : Config) : (∀ w, (recoveries cfg fun _ _ => true).Reachable w →
      (∀ id, Lawful cfg id (w.history id)) ∧ (∀ op w', w.exec cfg op = some w' →
          FreeDonors w'.recovery (w.call cfg op).1) ∧ ∀ id r, w.recovery.pending.find id = some r →
          (∃ donor deadline, r.phase = .awaitSnapshot donor deadline
            ∧ (asked (w.history id)).getLast? = some donor)
          ∨ ∃ kind versions, r.phase = .awaitRestore kind ∧ .offered kind versions ∈ w.history id)
    ∧ ∀ w, (recoveries cfg faithful).Reachable w →
      (∀ id r kind, w.recovery.pending.find id = some r →
        r.phase = .awaitRestore kind → Standing kind (w.history id))
      ∧ ∀ id, .promoted ∈ w.history id → (w.history id).count .done = 1 := by
  refine ⟨fun w h => ?_, fun w h => ?_⟩
  · have hok := machineOk_reachable h
    refine ⟨fun id => (hok.histories id).lawful,
      fun op w' hexec => (hok.step hexec).2, fun id r hr => ?_⟩
    have hpending := hok.pending id r hr
    cases hphase : r.phase with
    | awaitSnapshot donor deadline =>
      exact .inl ⟨donor, deadline, rfl, hpending.waits donor deadline hphase⟩
    | awaitRestore kind =>
      obtain ⟨versions, hmem⟩ := hpending.offered kind hphase
      exact .inr ⟨kind, versions, rfl, hmem⟩
  · have hends := (runOk_reachable h).ends
    refine ⟨fun id r kind => (hends id).stands r kind, fun id hmem => ?_⟩
    obtain ⟨hsame, hle⟩ := (hends id).ended
    have hpos : 0 < (w.history id).count .promoted := count_pos_iff.2 hmem
    omega

def twoDonors : Config := { Syncer.sampleConfig with maxDonorTries := 2 }

/-- The first donor times out, the second answers, and the island is promoted
and told. -/
theorem peer_recovery_second_donor : ∃ w, (recoveries twoDonors faithful).Reachable w
      ∧ w.history 0 = [.began ⟨0, 1⟩ 3 [3], .asked ⟨1, 1⟩, .asked ⟨2, 1⟩,
        .offered (.peer ⟨2, 1⟩) [4], .restored, .promoted, .done]
      ∧ (w.history 0).count .done = 1 := by
  obtain ⟨w, hr, hhist⟩ : ∃ w, (recoveries twoDonors faithful).Reachable w
      ∧ w.history 0 = [.began ⟨0, 1⟩ 3 [3], .asked ⟨1, 1⟩, .asked ⟨2, 1⟩,
        .offered (.peer ⟨2, 1⟩) [4], .restored, .promoted, .done] := System.exists_reachable
    [.register ⟨0, 1⟩, .begin ⟨0, 1⟩ 3 [3] [⟨⟨1, 1⟩, 0⟩] 10, .tick [⟨⟨2, 1⟩, 0⟩] 11,
      .snapshotReady ⟨2, 1⟩ ⟨⟨0, 1⟩, [4]⟩ [] 12, .restored ⟨0, 1⟩ (some [4]) [5],
      .promote ⟨0, 1⟩ 5 [5] 1] (by decide)
  exact ⟨w, hr, hhist, ((peer_recovery twoDonors).2 w hr).2 0 (hhist ▸ by decide)⟩

/-- PROMOTED AND NEVER TOLD: the island reports that it restored the source,
refuses it while the replay is under way, and the replay ends with the
recovery waiting for the second donor. -/
theorem promoted_without_done : ∃ w, (recoveries twoDonors fun _ _ => true).Reachable w
      ∧ .restored ∈ w.history 0 ∧ .promoted ∈ w.history 0 ∧ .done ∉ w.history 0
      ∧ ∀ r, w.recovery.pending.find 0 ≠ some r := by
  obtain ⟨w, hrun⟩ : ∃ w, System.play (fun _ _ => true) (Recoveries.exec twoDonors) .new
      [.register ⟨0, 1⟩, .begin ⟨0, 1⟩ 3 [3] [⟨⟨1, 1⟩, 0⟩] 10,
        .snapshotReady ⟨1, 1⟩ ⟨⟨0, 1⟩, [4]⟩ [] 12,
        .restored ⟨0, 1⟩ (some [4]) [5], .failed ⟨0, 1⟩ [⟨⟨2, 1⟩, 0⟩] 13,
        .promote ⟨0, 1⟩ 5 [5] 1] = some w := ⟨_, rfl⟩
  refine ⟨w, System.reachable_play hrun, ?_⟩
  cases hrun
  refine ⟨by decide, by decide, by decide, nofun⟩

end Ends

end Yeto.Server
