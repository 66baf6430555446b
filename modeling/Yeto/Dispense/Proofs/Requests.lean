/-
What `claim` and `report` can do. Every request renews the holder's lease (or
is fenced off), then meets the stored answer of the holder's latest request.
`RequestCase` lists the ways out; later proofs split over them.
-/
import Yeto.Dispense.Proofs.Report

namespace Yeto.Dispense

open Lib Dispenser SortedMap

variable {e : DispenseError} {a b c : Dispenser} {wanted : Nat} {data : DataDecl}
  {accept : List Nat}

def touched (d : Dispenser) (holder : Holder) (now : Nat) : Dispenser :=
  { d with members := (d.members.touch holder now).2 }

variable {d : Dispenser}

theorem Books.touched (h : Books d) (holder : Holder) (now : Nat) : Books (touched d holder now) :=
  h.with_members (Members.ok_touch h.members holder now)

/-- The latest request stored for `l` is older than `seq`. -/
def Live.Newer (l : Live) (seq : Nat) : Prop := ∀ n a, l.last = some (n, a) → n < seq

variable {holder : Holder} {d' : Dispenser} {l : Live}

theorem last_remember {seq : Nat} {a : Answer}
    (hl : (d.remember holder seq a).live.find holder = some l) : l.last = some (seq, a) := by
  dsimp only [remember] at hl
  rw [find_update, if_pos rfl] at hl
  obtain ⟨_, -, rfl⟩ := Option.map_eq_some_iff.1 hl
  rfl

section

variable (hl : d.live.find holder = some l)
include hl

theorem find_remember (seq : Nat) (a : Answer) :
    (d.remember holder seq a).live.find holder = some { l with last := some (seq, a) } := by
  dsimp only [remember]
  rw [find_update, if_pos rfl, hl]
  rfl

theorem replay_cases (seq : Nat) :
    (∃ m, d.replay holder seq = .error (.refused m) ∧ ¬ l.Newer seq ∧ ∀ a, l.last ≠ some (seq, a))
      ∨ (∃ a, d.replay holder seq = .ok (some a) ∧ ¬ l.Newer seq ∧ l.last = some (seq, a))
      ∨ (d.replay holder seq = .ok none ∧ l.Newer seq) := by
  unfold replay
  rw [hl]
  dsimp only [Option.bind_some]
  cases hlast : l.last with
  | none =>
    refine .inr (.inr ⟨rfl, fun n a h => ?_⟩)
    rw [hlast] at h
    cases h
  | some last =>
    obtain ⟨n, a⟩ := last
    dsimp only
    by_cases h1 : n = seq
    · subst h1
      rw [if_pos rfl]
      refine .inr (.inl ⟨a, rfl, fun hnew => ?_, rfl⟩)
      exact lt_irrefl n (hnew n a hlast)
    · rw [if_neg h1]
      by_cases h2 : n > seq
      · rw [if_pos h2]
        refine .inl ⟨_, rfl, fun hnew => ?_, fun a' h => ?_⟩
        · exact lt_asymm h2 (hnew n a hlast)
        · cases h
          exact h1 rfl
      · rw [if_neg h2]
        refine .inr (.inr ⟨rfl, fun n' a' h => ?_⟩)
        rw [hlast] at h
        cases h
        omega

theorem replay_stored {seq : Nat} {a : Answer} (hlast : l.last = some (seq, a)) :
    d.replay holder seq = .ok (some a) := by
  unfold replay
  rw [hl, Option.bind_some, hlast]
  exact if_pos rfl

theorem replay_newer {seq : Nat} (hnew : l.Newer seq) : d.replay holder seq = .ok none := by
  rcases replay_cases hl seq with ⟨_, _, hold, _⟩ | ⟨_, _, hold, _⟩ | ⟨hr, _⟩
  · exact absurd hnew hold
  · exact absurd hnew hold
  · exact hr

end

/-- What `claim` and `report` share: renew the lease, look for the stored
answer, and do what is `new`. -/
def request {α : Type} (d : Dispenser) (holder : Holder) (kind : Request) (seq now : Nat)
    (own : Answer → Except DispenseError α) (wrap : α → Answer)
    (new : Dispenser → Except DispenseError α × Dispenser) : Except DispenseError α × Dispenser :=
  match d.requireLive holder kind now with
  | (.error e, d) => (.error e, d)
  | (.ok (), d) =>
    match d.replay holder seq with
    | .error e => (.error e, d)
    | .ok (some a) => (own a, d)
    | .ok none =>
      match new d with
      | (.error e, d) => (.error e, d)
      | (.ok a, d) => (.ok a, d.remember holder seq (wrap a))

/-- The ways a request goes that gives `new` if it is new. -/
inductive RequestCase {α : Type} (d : Dispenser) (holder : Holder) (kind : Request) (seq now : Nat)
    (wrap : α → Answer) (new : Except DispenseError α × Dispenser) :
    Except DispenseError α × Dispenser → Prop
  | fenced (m : String) : ¬ Leased d holder → RequestCase d holder kind seq now wrap new
        (.error (.fenced m), d.log [.fenced holder kind])
  /-- An older request, or one whose number was of the other kind. -/
  | stale (l : Live) (m : String) : Leased d holder → d.live.find holder = some l → ¬ l.Newer seq →
      (∀ a, l.last ≠ some (seq, wrap a)) → RequestCase d holder kind seq now wrap new
        (.error (.refused m), touched d holder now)
  | replayed (l : Live) (a : α) : Leased d holder →
      d.live.find holder = some l → l.last = some (seq, wrap a) →
      RequestCase d holder kind seq now wrap new (.ok a, touched d holder now)
  | refused (l : Live) (e : DispenseError) : Leased d holder → d.live.find holder = some l →
      l.Newer seq → new = (.error e, touched d holder now) →
      RequestCase d holder kind seq now wrap new (.error e, touched d holder now)
  | new (l : Live) (a : α) (d' : Dispenser) : Leased d holder →
      d.live.find holder = some l → l.Newer seq → new = (.ok a, d') →
      RequestCase d holder kind seq now wrap new (.ok a, d'.remember holder seq (wrap a))

section Request

variable {α : Type} {kind : Request} {seq now : Nat} {own : Answer → Except DispenseError α}
  {wrap : α → Answer} {new : Dispenser → Except DispenseError α × Dispenser}

theorem request_leased (hlease : Leased d holder) : request d holder kind seq now own wrap new
      = match (touched d holder now).replay holder seq with
      | .error e => (.error e, touched d holder now)
      | .ok (some a) => (own a, touched d holder now)
      | .ok none =>
        match new (touched d holder now) with
        | (.error e, d) => (.error e, d)
        | (.ok a, d) => (.ok a, d.remember holder seq (wrap a)) := by
  unfold request
  rcases requireLive_cases d kind now with ⟨hn, -⟩ | ⟨-, hok⟩
  · exact absurd hlease hn
  · rw [hok]
    rfl

variable (new) in
theorem request_case (hown : ∀ a, (∃ x, own a = .ok x ∧ a = wrap x)
      ∨ (∃ m, own a = .error (.refused m)) ∧ ∀ x, a ≠ wrap x)
    (hnew : ∀ {d d' : Dispenser} {e}, new d = (.error e, d') → d' = d) :
    RequestCase d holder kind seq now wrap (new (touched d holder now))
      (request d holder kind seq now own wrap new) := by
  rcases requireLive_cases d kind now with ⟨hn, m, hm⟩ | ⟨hlease, -⟩
  · unfold request
    rw [hm]
    exact .fenced m hn
  · rw [request_leased hlease]
    obtain ⟨l, hl⟩ := (contains_iff d.live holder).1 hlease.1
    have hl' : (touched d holder now).live.find holder = some l := hl
    rcases replay_cases hl' seq with
      ⟨m, hr, hold, hne⟩ | ⟨a, hr, hold, ha⟩ | ⟨hr, hfresh⟩ <;> rw [hr]
    · exact .stale l m hlease hl hold fun a => hne _
    · dsimp only
      rcases hown a with ⟨x, hx, rfl⟩ | ⟨⟨m, hx⟩, hother⟩ <;> rw [hx]
      · exact .replayed l x hlease hl ha
      · refine .stale l m hlease hl hold fun x hlast => hother x ?_
        rw [ha] at hlast
        exact (Prod.mk.inj (Option.some.inj hlast)).2
    · dsimp only
      rcases hres : new (touched d holder now) with ⟨e | x, d'⟩
      · obtain rfl := hnew hres
        exact .refused l e hlease hl hfresh rfl
      · exact .new l x d' hlease hl hfresh rfl

theorem RequestCase.after {P : Dispenser → Prop} {fresh r : Except DispenseError α × Dispenser}
    (h : RequestCase d holder kind seq now wrap fresh r) (hlog : P (d.log [.fenced holder kind]))
    (htouch : P (touched d holder now))
    (hnew : ∀ l a, d.live.find holder = some l → P (fresh.2.remember holder seq (wrap a))) :
    P r.2 := by
  cases h with
  | fenced => exact hlog
  | stale | replayed | refused => exact htouch
  | new l a d' _ hl _ hres =>
    subst hres
    exact hnew l a hl

end Request

theorem claimNew_refused (holder : Holder) (h : wanted = 0 ∨ wanted > d.cfg.maxBlock.val) :
    d.claimNew holder wanted = (.error (.refused (sizeText wanted d.cfg.maxBlock.val)), d) := by
  unfold claimNew
  rw [if_pos h]

/-- The spans a claim of an allowed size collects are granted; without
any the answer is END or WAIT. -/
theorem claimNew_allowed (holder : Holder) (h : 0 < wanted ∧ wanted ≤ d.cfg.maxBlock.val) :
    ∃ a : Claim × Dispenser, d.claimNew holder wanted = (.ok a.1, a.2)
      ∧ a = if (d.collect (d.acceptOf holder) wanted).1.isEmpty
          then (d.collect (d.acceptOf holder) wanted).2.answerEmpty holder (d.acceptOf holder)
          else (d.collect (d.acceptOf holder) wanted).2.grant holder
            (d.collect (d.acceptOf holder) wanted).1 := by
  unfold claimNew
  rw [if_neg (by omega)]
  exact ⟨_, rfl, rfl⟩

theorem claimNew_size {c : Claim} (h : d.claimNew holder wanted = (.ok c, d')) :
    0 < wanted ∧ wanted ≤ d.cfg.maxBlock.val := by
  by_contra hw
  rw [claimNew_refused holder (by omega)] at h
  cases h

theorem claimNew_error (h : d.claimNew holder wanted = (.error e, d')) :
    (wanted = 0 ∨ wanted > d.cfg.maxBlock.val)
      ∧ e = .refused (sizeText wanted d.cfg.maxBlock.val) ∧ d' = d := by
  by_cases hw : 0 < wanted ∧ wanted ≤ d.cfg.maxBlock.val
  · obtain ⟨a, ha, -⟩ := claimNew_allowed holder hw
    cases ha.symm.trans h
  · rw [claimNew_refused holder (by omega)] at h
    cases h
    exact ⟨by omega, rfl, rfl⟩

theorem claim_eq (d : Dispenser) (holder : Holder) (seq wanted now : Nat) :
    d.claim holder seq wanted now = request d holder .claim seq now (fun
      | .claim c => .ok c
      | .report _ => .error (.refused s!"request {seq} was a report, not a claim"))
      .claim (·.claimNew holder wanted) := by
  unfold claim request
  rcases d.requireLive holder .claim now with ⟨_ | _, d₁⟩
  · rfl
  · dsimp only
    rcases d₁.replay holder seq with _ | _ | _ | _
    case ok.ok.none => rcases d₁.claimNew holder wanted with ⟨_ | _, _⟩ <;> rfl
    all_goals rfl

theorem claim_case (d : Dispenser) (holder : Holder) (seq wanted now : Nat) :
    RequestCase d holder .claim seq now .claim ((touched d holder now).claimNew holder wanted)
      (d.claim holder seq wanted now) := by
  rw [claim_eq]
  refine request_case (·.claimNew holder wanted) ?_ fun h => (claimNew_error h).2.2
  rintro (c | t)
  · exact .inl ⟨c, rfl, rfl⟩
  · exact .inr ⟨⟨_, rfl⟩, nofun⟩

/-- The blocks of `h` are the same ones. -/
def SameBlocks (h : Holder) (d d' : Dispenser) : Prop :=
  ∀ id, (d'.blocks.find id).filter (fun b => decide (b.holder = h))
    = (d.blocks.find id).filter fun b => decide (b.holder = h)

theorem SameBlocks.refl (h : Holder) (d : Dispenser) : SameBlocks h d d := fun _ => rfl

theorem SameBlocks.of_eq {h : Holder}
    (hb : d'.blocks = d.blocks) : SameBlocks h d d' := fun id => by rw [hb]

theorem stageEntries_congr (h : SameBlocks holder d d') : ∀ (entries : List ReportEntry)
      (staged : SortedMap Nat Block), d'.stageEntries holder entries staged
        = d.stageEntries holder entries staged := by
  have hentry : ∀ staged entry, d'.stageEntry holder staged entry
      = d.stageEntry holder staged entry := by
    intro staged entry
    unfold stageEntry stagedBlock
    rw [h entry.block]
  intro entries
  induction entries with
  | nil => intro staged; rfl
  | cons entry entries ih =>
    intro staged
    unfold stageEntries
    rw [hentry]
    split
    · rfl
    · rw [ih]

theorem stageEntries_touched (d : Dispenser) (holder : Holder) (now : Nat)
    (entries : List ReportEntry) : (touched d holder now).stageEntries holder entries .empty
      = d.stageEntries holder entries .empty := by
  have hs : SameBlocks holder d (touched d holder now) := SameBlocks.of_eq rfl
  exact stageEntries_congr hs entries .empty

theorem reportNew_fails {entries : List ReportEntry}
    (h : d.reportNew holder entries = (.error e, d')) :
    d.stageEntries holder entries .empty = .error e ∧ d' = d := by
  cases hst : d.stageEntries holder entries .empty with
  | error e' =>
    rw [reportNew_error hst] at h
    cases h
    exact ⟨rfl, rfl⟩
  | ok r =>
    unfold reportNew at h
    rw [hst] at h
    cases h

theorem report_eq (d : Dispenser) (holder : Holder) (seq : Nat) (entries : List ReportEntry)
    (now : Nat) : d.report holder seq entries now = request d holder .report seq now (fun
      | .report t => .ok t
      | .claim _ => .error (.refused s!"request {seq} was a claim, not a report"))
      .report (·.reportNew holder entries) := by
  unfold report request
  rcases d.requireLive holder .report now with ⟨_ | _, d₁⟩
  · rfl
  · dsimp only
    rcases d₁.replay holder seq with _ | _ | _ | _
    case ok.ok.none => rcases d₁.reportNew holder entries with ⟨_ | _, _⟩ <;> rfl
    all_goals rfl

theorem report_case (d : Dispenser) (holder : Holder) (seq : Nat)
    (entries : List ReportEntry) (now : Nat) :
    RequestCase d holder .report seq now .report ((touched d holder now).reportNew holder entries)
      (d.report holder seq entries now) := by
  rw [report_eq]
  refine request_case (·.reportNew holder entries) ?_ fun h => (reportNew_fails h).2
  rintro (c | t)
  · exact .inr ⟨⟨_, rfl⟩, nofun⟩
  · exact .inl ⟨t, rfl, rfl⟩

/-- The declaration passed every check of `open_with` before the accept
list, and `d'` has it fixed. -/
structure Agreed (d : Dispenser) (holder : Holder) (data : DataDecl) (d' : Dispenser) : Prop where
  fresh : d.members.isRetired holder = false
  rows : data.totalRows ≠ 0
  valid : data.Valid
  agree : d.agreeData holder data = .ok d'

inductive OpenCase (d : Dispenser) (holder : Holder) (data : DataDecl)
    (accept : Option (List Nat)) (now : Nat) : Except DispenseError OpenOutcome × Dispenser → Prop
  | fenced (m : String) : d.members.isRetired holder = true → OpenCase d holder data accept now
        (.error (.fenced m), d.log [.fenced holder .openHello])
  /-- A declaration that is empty, invalid, or not the run's. -/
  | refused (e : DispenseError) : (∀ d', ¬ Agreed d holder data d') →
      OpenCase d holder data accept now (.error e, d)
  | badList (d' : Dispenser) (e : DispenseError) : Agreed d holder data d' →
      acceptList d'.streams.length accept = .error e →
      OpenCase d holder data accept now (.error e, d')
  | full (d' : Dispenser) (list : List Nat) (e : DispenseError) :
      Agreed d holder data d' → acceptList d'.streams.length accept = .ok list →
      d'.live.contains holder = false → liveLimit ≤ d'.live.size →
      OpenCase d holder data accept now (.error e, d')
  | opened (d' : Dispenser) (list : List Nat) (out : OpenOutcome)
      (d'' : Dispenser) : Agreed d holder data d' → acceptList d'.streams.length accept = .ok list →
      d'.enroll holder data list now = (.ok out, d'') →
      OpenCase d holder data accept now (.ok out, d'')

theorem open_case (d : Dispenser) (holder : Holder) (data : DataDecl) (accept : Option (List Nat))
    (now : Nat) : OpenCase d holder data accept now (d.openWith holder data accept now) := by
  unfold openWith
  split
  · next hr => exact .fenced _ hr
  next hr =>
  split
  · next h0 => exact .refused _ fun d' ha => ha.rows h0
  next h0 =>
  split
  · next m hv =>
    refine .refused _ fun d' ha => ?_
    rw [(DataDecl.validate_ok_iff data).2 ha.valid] at hv
    cases hv
  · next hv =>
    split
    · next e ha =>
      refine .refused _ fun d' hag => ?_
      rw [hag.agree] at ha
      cases ha
    · next d' ha =>
      have hag : Agreed d holder data d' :=
        ⟨by simpa using hr, h0, (DataDecl.validate_ok_iff data).1 hv, ha⟩
      split
      · next e hl => exact .badList d' e hag hl
      next list hl =>
      cases he : d'.enroll holder data list now with
      | mk r d'' =>
        cases r with
        | ok out => exact .opened d' list out d'' hag hl he
        | error e =>
          dsimp only [enroll] at he
          split at he
          · cases he
          · next hc =>
            split at he <;> cases he
            next hfull => exact .full d' list _ hag hl (by simpa using hc) hfull

theorem Books.claim (h : Books d) (holder : Holder)
    (seq wanted now : Nat) : Books (d.claim holder seq wanted now).2 := by
  refine (claim_case ..).after (h.log _) (h.touched holder now) fun l c hl => ?_
  exact ((h.touched holder now).claimNew hl wanted).remember holder seq _

theorem Books.report (h : Books d) (holder : Holder) (seq : Nat) (entries : List ReportEntry)
    (now : Nat) : Books (d.report holder seq entries now).2 := by
  refine (report_case ..).after (h.log _) (h.touched holder now) fun l t _ => ?_
  exact ((h.touched holder now).reportNew holder entries).remember holder seq _

theorem Books.apply (h : Books d) (o : Op) : Books (d.apply o) := by
  cases o with
  | openWith holder data accept now => exact h.openWith holder data accept now
  | claim holder seq wanted now => exact h.claim holder seq wanted now
  | report holder seq entries now => exact h.report holder seq entries now
  | heartbeat holder now => exact h.requireLive holder .heartbeat now
  | expire now => exact h.expire now
  | memberJoin | memberTouch | memberRetire | memberExpire =>
    exact h.with_members (ok_onMembers h.members _)

/-- The configuration stands, the data is fixed once, the counters never
go back, and stream `s` gives out at most `t s` positions, none past its
limit. -/
structure Grows (t : Nat → Nat) (d d' : Dispenser) : Prop where
  cfg : d'.cfg = d.cfg
  data : ∀ decl, d.data = some decl → d'.data = some decl
  length : d.streams.length ≤ d'.streams.length
  next : ∀ s, (d.stream s).next ≤ (d'.stream s).next
  upper : ∀ s, (d'.stream s).next ≤ (d.stream s).next + t s
  capped : ∀ s, (d.stream s).next ≤ d.limit s → (d'.stream s).next ≤ d'.limit s
  nextBlock : d.nextBlock ≤ d'.nextBlock

theorem Grows.refl (d : Dispenser) : Grows 0 d d :=
  ⟨rfl, fun _ h => h, le_rfl, fun _ => le_rfl, fun _ => le_rfl, fun _ h => h, le_rfl⟩

variable {t : Nat → Nat}

theorem Grows.add {t' : Nat → Nat} (h : Grows t a b) (h' : Grows t' b c) : Grows (t + t') a c := by
  refine ⟨h'.cfg.trans h.cfg, fun decl hd => h'.data decl (h.data decl hd),
    h.length.trans h'.length, fun s => (h.next s).trans (h'.next s),
    fun s => ?_, fun s hs => h'.capped s (h.capped s hs), h.nextBlock.trans h'.nextBlock⟩
  rw [Pi.add_apply, ← add_assoc]
  exact (h'.upper s).trans (Nat.add_le_add_right (h.upper s) _)

theorem Grows.trans (h : Grows t a b) (h' : Grows 0 b c) : Grows t a c := add_zero t ▸ h.add h'

theorem Grows.after (h' : Grows t b c) (h : Grows 0 a b) : Grows t a c := zero_add t ▸ h.add h'

theorem Grows.weaken (h : Grows 0 a b) : Grows t a b :=
  { h with upper := fun s => (h.upper s).trans (Nat.le_add_right _ _) }

theorem grows_of_next (hc : d'.cfg = d.cfg)
    (hd : d'.data = d.data) (hlen : d'.streams.length = d.streams.length)
    (hs : ∀ s, (d'.stream s).next = (d.stream s).next)
    (hn : d'.nextBlock = d.nextBlock) : Grows 0 d d' := by
  refine ⟨hc, fun decl h => hd.trans h, le_of_eq hlen.symm,
    fun s => le_of_eq (hs s).symm, fun s => le_of_eq (hs s), fun s h => ?_, le_of_eq hn.symm⟩
  rw [hs, limit_congr hc hd]
  exact h

theorem grows_of_eq (hc : d'.cfg = d.cfg) (hd : d'.data = d.data) (hs : d'.streams = d.streams)
    (hn : d'.nextBlock = d.nextBlock) : Grows 0 d d' := by
  refine grows_of_next hc hd (by rw [hs]) (fun s => ?_) hn
  unfold stream
  rw [hs]

section

variable (d)

theorem grows_pushFront {spans : List Span} : Grows 0 d (d.pushFront spans) :=
  grows_of_next rfl rfl (foldr_pushSpan_next _ _).1 (fun s => ((foldr_pushSpan_next _ _).2 s).1) rfl

theorem grows_reclaim (holder : Holder) (reason : ReclaimReason) :
    Grows 0 d (d.reclaim holder reason).2 := by
  obtain ⟨h1, h2, h3, h4, h5⟩ := reclaim_frame d holder reason
  exact grows_of_next h1 h2 h4 (fun s => (h5 s).1) h3

theorem grows_reclaims (es : List (Holder × ReclaimReason)) :
    Grows 0 d (reclaimAll es d) := reclaims_keeps (Q := Grows 0 d)
    (fun d' holder reason h => h.trans (grows_reclaim d' holder reason)) es (Grows.refl d)

theorem grows_expire (now : Nat) : Grows 0 d (d.expire now).2 := by
  obtain ⟨es, -, heq⟩ := expire_eq d now
  rw [heq]
  exact (grows_of_eq rfl rfl rfl rfl :
    Grows 0 d { d with members := (d.members.expire now).2 }).trans (grows_reclaims _ es)

end

theorem grows_agreeData (hb : Books d) (h : d.agreeData holder data = .ok d') : Grows 0 d d' := by
  rcases agreeData_ok h with ⟨-, rfl⟩ | ⟨hd, rfl⟩
  · exact Grows.refl _
  · have hs : ∀ s, (d.stream s).next = 0 := by
      intro s
      unfold stream
      rw [(hb.nodata hd).1]
      rfl
    have hs' : ∀ s, ((d.fixData data).stream s).next = 0 := by
      intro s
      show ((data.streams.map fun _ => StreamState.default).getD s .default).next = 0
      rw [List.getD_eq_getElem?_getD, List.getElem?_map]
      cases data.streams[s]? with
      | none => rfl
      | some decl => rfl
    refine ⟨rfl, fun decl h => ?_, ?_, fun s => ?_, fun s => ?_, fun s _ => ?_, le_rfl⟩
    · rw [hd] at h
      cases h
    · rw [(hb.nodata hd).1]
      exact Nat.zero_le _
    · rw [hs]
      exact Nat.zero_le _
    all_goals
      rw [hs']
      exact Nat.zero_le _

theorem grows_enroll {list : List Nat} (now : Nat) :
    Grows 0 d (d.enroll holder data list now).2 := by
  dsimp only [enroll]
  split
  · exact grows_of_eq rfl rfl rfl rfl
  split
  · exact Grows.refl d
  · have hjoin : Grows 0 d { d with members := (d.members.join holder now).2 } :=
      grows_of_eq rfl rfl rfl rfl
    rw [supersede_eq]
    exact (hjoin.trans (grows_reclaims _ _)).trans (grows_of_eq rfl rfl rfl rfl)

theorem grows_openWith (hb : Books d) (holder : Holder) (data : DataDecl)
    (accept : Option (List Nat)) {now : Nat} : Grows 0 d (d.openWith holder data accept now).2 := by
  unfold openWith
  split
  · exact grows_of_eq rfl rfl rfl rfl
  split
  · exact Grows.refl d
  split
  · exact Grows.refl d
  · split
    · exact Grows.refl d
    · next d' ha =>
      have hg := grows_agreeData hb ha
      split
      · exact hg
      · exact hg.trans (grows_enroll now)

theorem grows_answerEmpty : Grows 0 d (d.answerEmpty holder accept).2 := by
  unfold answerEmpty
  split
  · exact grows_of_eq rfl rfl rfl rfl
  · split
    · exact grows_of_eq rfl rfl rfl rfl
    · exact Grows.refl d

def takes (d : Dispenser) (holder : Holder) (wanted : Nat) (s : Nat) : Nat :=
  if s ∈ d.acceptOf holder then wanted else 0

theorem grows_collect (wanted : Nat) (hacc : ∀ s ∈ accept, s < d.streams.length) :
    Grows (fun s => if s ∈ accept then wanted else 0) d (d.collect accept wanted).2 := by
  have hg := gave_collect d accept wanted
  refine ⟨hg.cfg, fun _ h => hg.data.trans h, le_of_eq hg.length.symm,
    fun s => ?_, fun s => ?_, fun s hs => ?_, le_of_eq hg.nextBlock.symm⟩
  · rw [(next_collect wanted hacc s).1]
    exact Nat.le_add_right _ _
  · by_cases hs : s ∈ accept
    · rw [if_pos hs, (next_collect wanted hacc s).1]
      exact Nat.add_le_add_left (pickedOf_le_wanted wanted hacc s) _
    · rw [if_neg hs, (next_collect wanted hacc s).2.2.1 hs]
      exact le_rfl
  · rw [limit_congr hg.cfg hg.data]
    exact (next_collect wanted hacc s).2.1 hs

theorem grows_claimNew (hb : Books d) (hl : d.live.find holder = some l) (wanted : Nat) :
    Grows (takes d holder wanted) d (d.claimNew holder wanted).2 := by
  unfold takes
  rw [acceptOf_eq hl]
  have hcollect := grows_collect wanted (hb.accept holder l hl).2.2
  refine claimNew_cases (P := Grows _ d) hl wanted (Grows.refl d).weaken (fun _ => ?_) ?_
  · exact hcollect.trans grows_answerEmpty
  · exact hcollect.trans ⟨rfl, fun _ h => h, le_rfl, fun _ => le_rfl,
      fun _ => le_rfl, fun _ h => h, Nat.le_succ _⟩

theorem grows_reportNew (d : Dispenser) (holder : Holder) (entries : List ReportEntry) :
    Grows 0 d (d.reportNew holder entries).2 := by
  refine reportNew_rule (Grows.refl d) fun _ hfin => ?_
  have hg : Grows 0 d _ := grows_of_eq hfin.cfg hfin.data hfin.streams hfin.nextBlock
  exact hg.trans (grows_pushFront _)

def Op.takes (d : Dispenser) : Op → Nat → Nat
  | .claim holder _ wanted _ => Dispense.takes d holder wanted
  | _ => 0

theorem grows_apply (hb : Books d) (o : Op) : Grows (o.takes d) d (d.apply o) := by
  cases o with
  | openWith holder data accept now => exact grows_openWith hb holder data accept
  | claim holder seq wanted now =>
    have hstart : Grows 0 d (touched d holder now) := grows_of_eq rfl rfl rfl rfl
    refine (claim_case ..).after (P := Grows (Dispense.takes d holder wanted) d)
      (Grows.weaken (grows_of_eq rfl rfl rfl rfl)) hstart.weaken fun l c hl => ?_
    have hg := grows_claimNew (hb.touched holder now) hl wanted
    exact (Grows.after hg hstart).trans (grows_of_eq rfl rfl rfl rfl)
  | report holder seq entries now =>
    have hstart : Grows 0 d (touched d holder now) := grows_of_eq rfl rfl rfl rfl
    refine (report_case ..).after (P := Grows 0 d) (grows_of_eq rfl rfl rfl rfl) hstart
      fun l t _ => ?_
    have hg := grows_reportNew (touched d holder now) holder entries
    exact (hstart.trans hg).trans (grows_of_eq rfl rfl rfl rfl)
  | heartbeat holder now =>
    exact requireLive_rule (P := Grows 0 d)
      (grows_of_eq rfl rfl rfl rfl) (grows_of_eq rfl rfl rfl rfl)
  | expire now => exact grows_expire d now
  | memberJoin | memberTouch | memberRetire | memberExpire => exact grows_of_eq rfl rfl rfl rfl

theorem Grows.fits (h : Grows t d d') (hfit : Fits d'.streams) : Fits d.streams := by
  intro s hs
  have hnext : (d.streams.getD s .default).next ≤ (d'.streams.getD s .default).next := h.next s
  rcases hfit s (lt_of_lt_of_le hs h.length) with hlt | ⟨heven, heq⟩
  · exact .inl (lt_of_le_of_lt hnext hlt)
  · rw [heq] at hnext
    rcases Nat.lt_or_eq_of_le hnext with hlt | heq
    · exact .inl hlt
    · exact .inr ⟨heven, heq⟩

end Yeto.Dispense
