/-
A carried delta counts once.

`LateCarry` keeps two high-water marks per connection and fragment: the newest
base of a CARRIED delta, which only rises, and the newest base of a delta
GATHERED by its own round, which a restart lowers again, whatever else was
merged from it (`carried_twice`). As long as no restart drops a push whose base
was merged before, the law holds in every run (`carried_once`).
-/
import Yeto.Server.Proofs.Roster

namespace Yeto.Server

open Lib Downlink List SortedMap Option Round

/-- The mark of a connection and fragment is at least `b`. -/
def Marked (marks : SortedMap AnchorKey Nat) (m : Member) (p b : Nat) : Prop :=
  ∃ top, marks.find (anchorKey m p) = some top ∧ b ≤ top

namespace LateCarry

variable {c c' : LateCarry} {m m' : Member} {p p' b b' : Nat}

theorem anchorKey_inj (h : anchorKey m p = anchorKey m' p') : m = m' ∧ p = p' :=
  Prod.mk.inj (toLex.injective h)

theorem marked_raise {marks : SortedMap AnchorKey Nat} (h : Marked marks m p b)
    {key : AnchorKey} (base : Nat) : Marked (raise marks key base) m p b := by
  obtain ⟨top, htop, hle⟩ := h
  unfold raise Marked
  rw [find_insert]
  split
  · next heq =>
    rw [← heq, htop]
    exact ⟨_, rfl, le_trans hle (Nat.le_max_left _ _)⟩
  · exact ⟨top, htop, hle⟩

theorem marked_raise_self {marks : SortedMap AnchorKey Nat} {base : Nat} :
    Marked (raise marks (anchorKey m p) base) m p base := by
  unfold raise Marked
  rw [find_insert_self]
  exact ⟨_, rfl, Nat.le_max_right _ _⟩

theorem marked_releaseAnchor {e : Member × Push} (h : Marked c.gathered m p b)
    (hne : m = e.1 → p = e.2.fragmentId → b ≠ e.2.baseVersion) :
    Marked (c.releaseAnchor e).gathered m p b := by
  obtain ⟨top, htop, hle⟩ := h
  dsimp only [releaseAnchor]
  split
  · next hmark =>
    by_cases hkey : anchorKey m p = anchorKey e.1 e.2.fragmentId
    · -- The mark is the base of the dropped push, and `b` is older.
      have heq : top = e.2.baseVersion := by
        rw [hkey, hmark] at htop
        exact (Option.some.inj htop).symm
      have hlt : b ≠ e.2.baseVersion := hne (anchorKey_inj hkey).1 (anchorKey_inj hkey).2
      split
      · omega
      · unfold Marked
        rw [hkey, find_insert_self]
        exact ⟨_, rfl, by omega⟩
    · split
      · unfold Marked
        rw [find_erase_ne _ hkey]
        exact ⟨top, htop, hle⟩
      · unfold Marked
        rw [find_insert_ne _ _ hkey]
        exact ⟨top, htop, hle⟩
  · exact ⟨top, htop, hle⟩

theorem marked_releaseAll {es : List (Member × Push)} : ∀ {c : LateCarry}, Marked c.gathered m p b →
      (∀ e ∈ es, m = e.1 → p = e.2.fragmentId → b ≠ e.2.baseVersion) →
      Marked (es.foldl releaseAnchor c).gathered m p b := by
  induction es with
  | nil => exact fun h _ => h
  | cons e es ih =>
    intro c h hne
    exact ih (marked_releaseAnchor h (hne e mem_cons_self)) fun x hx => hne x (mem_cons_of_mem _ hx)

theorem releaseAll_frame (es : List (Member × Push)) :
    ∀ c : LateCarry, (es.foldl releaseAnchor c).anchors = c.anchors
      ∧ (es.foldl releaseAnchor c).queued = c.queued := by
  induction es with
  | nil => exact fun c => ⟨rfl, rfl⟩
  | cons e es ih =>
    intro c
    rw [foldl_cons, (ih _).1, (ih _).2]
    dsimp only [releaseAnchor]
    split <;> exact ⟨rfl, rfl⟩

end LateCarry

open LateCarry

/-- A round merged a delta of `m` from the base and fragment of `push`. -/
def LogEntry.merges (m : Member) (push : Push) : LogEntry → Bool
  | .merged r => (r.pushes.find m).any fun other =>
    decide (other.fragmentId = push.fragmentId ∧ other.baseVersion = push.baseVersion)
  | _ => false

namespace Syncer

variable {n : Numerics} {cfg : Config} {s s' : Syncer}

/-- A delta that was merged by its own round or carried before is not
carried, and one that was carried is not accepted. -/
def CarriedOnce (before : List LogEntry) (e : LogEntry) : Prop := (∀ m push, e = .carried m push →
    (∀ r push', .merged r ∈ before → r.pushes.find m = some push' →
      push'.fragmentId = push.fragmentId → push'.baseVersion < push.baseVersion)
    ∧ ∀ push', .carried m push' ∈ before → push'.fragmentId = push.fragmentId →
      push'.baseVersion < push.baseVersion)
  ∧ ∀ m push, e = .accepted m push → ∀ push', .carried m push' ∈ before →
      push'.fragmentId = push.fragmentId → push'.baseVersion < push.baseVersion

/-- The round that the next turn of the scheduler restarts. -/
def restarting (cfg : Config) (s : Syncer) : Option Round :=
  match s.todo with
  | .act k now _ :: _ =>
    (s.pipe.inflight[k]?).filter fun r => decide (r.action now = .restart ∧ cfg.fixedRoster = false
      ∧ cfg.membership.minLaunchMembers cfg.quorum ≤ s.reg.currentGroups.length)
  | _ => none

variable {r : Round}

theorem restarting_eq {k now : Nat} {submitted : Bool}
    (hw : s.todo.head? = some (.act k now submitted)) (hk : s.pipe.inflight[k]? = some r)
    (hact : r.action now = .restart) (hroster : cfg.fixedRoster = false)
    (henough : cfg.membership.minLaunchMembers cfg.quorum ≤ s.reg.currentGroups.length) :
    s.restarting cfg = some r := by
  unfold restarting
  cases htodo : s.todo with rw [htodo] at hw
  | nil => cases hw
  | cons w todo =>
    cases hw
    dsimp only
    rw [hk]
    exact if_pos (decide_eq_true ⟨hact, hroster, henough⟩)

/-- A push the round gathered has the base of a delta merged before. -/
def dropsMerged (s : Syncer) (r : Round) : Bool :=
  r.pushes.entries.any fun a => s.log.any (LogEntry.merges a.1 a.2)

/-- A restart drops no push whose base was merged before. -/
def keepsMarks (cfg : Config) (s : Syncer) : Op → Bool
  | .turn _ => (s.restarting cfg).all fun r => !s.dropsMerged r
  | _ => true

/-- What was carried, merged or gathered is below its mark. -/
structure CarryOk (s : Syncer) : Prop where
  carried : ∀ m push, .carried m push ∈ s.roundLog → ∃ c, s.pipe.lateCarry = some c
      ∧ Marked c.anchors m push.fragmentId push.baseVersion
  merged : ∀ c r m push, s.pipe.lateCarry = some c → .merged r ∈ s.roundLog →
    r.pushes.find m = some push → Marked c.gathered m push.fragmentId push.baseVersion
  gathered : ∀ c r m push, s.pipe.lateCarry = some c → r ∈ s.pipe.rounds →
    r.pushes.find m = some push → Marked c.gathered m push.fragmentId push.baseVersion
  once : Upheld CarriedOnce s.roundLog

theorem PipeStep.anchors_rise (hs : PipeStep cfg s s') {c : LateCarry}
    (hc : s.pipe.lateCarry = some c) : ∃ c', s'.pipe.lateCarry = some c'
      ∧ ∀ m p b, Marked c.anchors m p b → Marked c'.anchors m p b := by
  cases hs with
  | quiet _ pipe | submit _ _ _ pipe | computed _ pipe | settle _ _ pipe
  | written _ pipe =>
    refine ⟨c, ?_, fun _ _ _ h => h⟩
    rw [pipe]
    exact hc
  | commit _ _ _ _ pipe =>
    refine ⟨c, ?_, fun _ _ _ h => h⟩
    rcases pipe with ⟨-, -, pipe⟩ | ⟨-, pipe⟩ <;>
    · rw [pipe]
      exact hc
  | launch _ _ _ pipe =>
    let p := cfg.schedule.fragmentForStep s.pipe.nextT
    refine ⟨{ c with queued := c.queued.erase p }, ?_, fun _ _ _ h => h⟩
    rw [pipe]
    dsimp only
    rw [attachLate_fst, hc]
    rfl
  | @restart _ _ _ _ r _ _ _ pipe =>
    refine ⟨r.pushes.entries.foldl releaseAnchor c, ?_, fun _ _ _ h => ?_⟩
    · rw [pipe]
      rw [hc]
      rfl
    · rw [(releaseAll_frame _ c).1]
      exact h
  | @accept m push _ _ _ pipe =>
    refine ⟨c.noteGathered m push.fragmentId push.baseVersion, ?_, fun _ _ _ h => h⟩
    rw [pipe]
    rw [hc]
    rfl
  | @carry member push c₀ c' outcome inflight fresh late closed carry taken pipe cut log =>
    rw [late] at hc
    cases hc
    have hanchors : c'.anchors = c.anchors := by
      obtain ⟨-, -, -, -, ⟨_, _, _, _, _, _, _, heq, _⟩ | ⟨-, heq⟩⟩ := carry_taken carry taken
      · rw [heq]
      · rw [heq]
    refine ⟨c'.spendAnchor member push.fragmentId push.baseVersion, ?_, fun m p b h => ?_⟩
    · rw [pipe]
    · rw [← hanchors] at h
      exact marked_raise h _

variable {push : Push} {m : Member}

/-- Where a push of an uncommitted round comes from: it was gathered
before, or was accepted now. -/
theorem pushes_origin (ho : Origin cfg s s' r) (hm : r.pushes.find m = some push) :
    (∃ r₀ ∈ s.pipe.rounds, ∃ old, r₀.pushes.find m = some old ∧ push.taken = old.taken)
      ∨ ∃ new, s'.roundLog = s.roundLog ++ [.accepted m new] ∧ push.taken = new.taken := by
  have hsame : ∀ r₀ ∈ s.pipe.rounds, r.pushes = r₀.pushes →
      ∃ r₀ ∈ s.pipe.rounds, ∃ old, r₀.pushes.find m = some old
        ∧ push.taken = old.taken := fun r₀ hr heq =>
    ⟨r₀, hr, push, heq ▸ hm, rfl⟩
  cases ho with
  | kept old _ => exact .inl (hsame r old rfl)
  | quiet old quiet _ => exact .inl (hsame _ old (sameWork_quiet quiet).pushes)
  | launch round _ =>
    obtain ⟨late, heq, -⟩ := attachLate_spec _
    rw [round, heq] at hm
    cases hm
  | restart _ _ round _ =>
    rw [round] at hm
    cases hm
  | prepared old _ prepare _ =>
    refine .inl (hsame _ (mem_rounds_inflight old) ?_)
    obtain ⟨-, -, heq | ⟨carried, heq, -⟩⟩ := prepareRoundCompute_ok prepare
    · exact congrArg pushes heq
    · exact (congrArg pushes heq :)
  | @accept r₀ m₀ new old _ accepts round log =>
    obtain ⟨fold, pushes, heq, hans⟩ := advanceFold_spec cfg m₀
    have hfind := hans m
    rw [round, heq] at hm
    rw [hm, find_insert] at hfind
    split at hfind
    · next heq' =>
      subst heq'
      exact .inr ⟨new, log, Option.some.inj hfind⟩
    · obtain ⟨q, hq, htaken⟩ := map_eq_some_iff.1 hfind.symm
      exact .inl ⟨r₀, mem_rounds_inflight old, q, hq, htaken.symm⟩
  | carry old _ _ _ round _ =>
    refine .inl (hsame _ (mem_rounds_inflight old) ?_)
    rw [round]

theorem marked_taken {marks : SortedMap AnchorKey Nat} {old : Push} (h : push.taken = old.taken)
    (hm : Marked marks m old.fragmentId old.baseVersion) :
    Marked marks m push.fragmentId push.baseVersion := by
  have hf : push.fragmentId = old.fragmentId := (congrArg Push.fragmentId h :)
  have hb : push.baseVersion = old.baseVersion := (congrArg Push.baseVersion h :)
  rwa [hf, hb]

inductive MarksStep (cfg : Config) (s s' : Syncer) (c c' : LateCarry) : Prop
  | same (gathered : c'.gathered = c.gathered)
      (log : ∀ m push, s'.roundLog ≠ s.roundLog ++ [.accepted m push])
  | accept {m : Member} {push : Push} (gathered : c'.gathered = raise c.gathered
        (anchorKey m push.fragmentId) push.baseVersion)
      (log : s'.roundLog = s.roundLog ++ [.accepted m push])
  | restart {r : Round} (roster : cfg.fixedRoster = false) (restarting : s.restarting cfg = some r)
      (old : r ∈ s.pipe.inflight) (gathered : c'.gathered
        = (r.pushes.entries.foldl releaseAnchor c).gathered)
      (others : ∀ x ∈ s'.pipe.rounds, ∀ m push, x.pushes.find m = some push →
        x ∈ s.pipe.rounds ∧ x.t ≠ r.t)
      (log : ∃ t p a gs, s'.roundLog = s.roundLog ++ [.launched t p a gs])

variable {e : LogEntry} {c' : LateCarry}

theorem PipeStep.marks (hpipe : PipelineOk cfg s) (hs : PipeStep cfg s s')
    (hc' : s'.pipe.lateCarry = some c') :
    ∃ c, s.pipe.lateCarry = some c ∧ MarksStep cfg s s' c c' := by
  have haside : ∀ {e : LogEntry}, s'.roundLog = s.roundLog ++ [e] →
      (∀ m push, e ≠ .accepted m push) →
      ∀ m push, s'.roundLog ≠ s.roundLog ++ [.accepted m push] := by
    intro e log he m push hlog
    rw [log] at hlog
    exact he m push (List.cons.inj (append_cancel_left hlog)).1
  cases hs with
  | quiet _ pipe _ log | submit _ _ _ pipe _ log | computed _ pipe _ log
  | settle _ _ pipe _ log | written _ pipe _ log =>
    rw [pipe] at hc'
    refine ⟨c', hc', .same rfl fun m push => ?_⟩
    rw [log]
    exact append_ne_self
  | commit _ _ _ _ pipe _ _ log =>
    have hc : s.pipe.lateCarry = some c' := by
      rcases pipe with ⟨-, -, pipe⟩ | ⟨-, pipe⟩ <;>
      · rw [pipe] at hc'
        exact hc'
    exact ⟨c', hc, .same rfl (haside log fun _ _ => nofun)⟩
  | launch _ _ _ pipe _ log =>
    rw [pipe] at hc'
    dsimp only at hc'
    rw [attachLate_fst] at hc'
    obtain ⟨c, hc, rfl⟩ := map_eq_some_iff.1 hc'
    exact ⟨c, hc, .same rfl (haside log fun _ _ => nofun)⟩
  | @restart k now clock submitted r round roster enough pipe cut log turn timeout =>
    have hrest := restarting_eq turn round timeout roster enough
    obtain ⟨l₁, l₂, hl, hset⟩ := exists_split_set round
      (r.restart cfg s.st.versions (s.reg.currentGroups.map Group.member) clock)
    have hothers : ∀ x ∈ s'.pipe.rounds, ∀ m push,
        x.pushes.find m = some push → x ∈ s.pipe.rounds ∧ x.t ≠ r.t := by
      intro x hx m push hm
      rcases origin_replace s (by rw [pipe]; exact hset) (by rw [pipe])
        (by rw [pipe]) hx with rfl | hx
      · cases hm
      · exact ⟨mem_rounds_rest hl hx, hpipe.steps_split hl hx⟩
    rw [pipe] at hc'
    obtain ⟨c, hc, rfl⟩ := map_eq_some_iff.1 hc'
    exact ⟨c, hc, .restart roster hrest (mem_of_getElem? round) rfl hothers ⟨_, _, _, _, log⟩⟩
  | accept _ _ pipe _ log =>
    rw [pipe] at hc'
    obtain ⟨c, hc, rfl⟩ := map_eq_some_iff.1 hc'
    exact ⟨c, hc, .accept rfl log⟩
  | carry _ late _ carry taken pipe _ log =>
    rw [pipe] at hc'
    cases hc'
    refine ⟨_, late, .same ?_ (haside log fun _ _ => nofun)⟩
    obtain ⟨-, -, -, -, ⟨_, _, _, _, _, _, _, heq, _⟩ | ⟨-, heq⟩⟩ := carry_taken carry taken
    · rw [heq]
      rfl
    · rw [heq]
      rfl

theorem merged_step (hs : PipeStep cfg s s') (h : .merged r ∈ s'.roundLog) :
    .merged r ∈ s.roundLog ∨ r ∈ s.pipe.rounds ∧ s'.roundLog = s.roundLog ++ [.merged r] := by
  rcases hs.roundLog with log | ⟨e, log⟩
  · exact .inl (log ▸ h)
  · rw [log] at h
    rcases mem_snoc.1 h with h | rfl
    · exact .inl h
    · exact .inr ⟨hs.logSays log, log⟩

theorem merges_iff : e.merges m push = true ↔ ∃ r other, e = .merged r
      ∧ r.pushes.find m = some other ∧ other.fragmentId = push.fragmentId
      ∧ other.baseVersion = push.baseVersion := by
  constructor
  · intro h
    cases e with
    | merged r =>
      obtain ⟨other, hother, hsame⟩ := (any_eq_true _ _).1 h
      exact ⟨r, other, rfl, hother, of_decide_eq_true hsame⟩
    | _ => cases h
  · rintro ⟨r, other, rfl, hother, hsame⟩
    exact (any_eq_true _ _).2 ⟨other, hother, decide_eq_true hsame⟩

theorem dropsMerged_false {r₀ : Round} {a : Member × Push} (h : s.dropsMerged r = false)
    (ha : a ∈ r.pushes.entries) (hr₀ : .merged r₀ ∈ s.roundLog)
    (hm : r₀.pushes.find a.1 = some push) (hp : push.fragmentId = a.2.fragmentId) :
    push.baseVersion ≠ a.2.baseVersion := by
  intro hb
  have hlog : s.log.any (LogEntry.merges a.1 a.2) = true :=
    any_eq_true.2 ⟨.merged r₀, (mem_filter.1 hr₀).1, merges_iff.2 ⟨r₀, push, rfl, hm, hp, hb⟩⟩
  have hdrops : s.dropsMerged r = true := any_eq_true.2 ⟨a, ha, hlog⟩
  rw [h] at hdrops
  cases hdrops

section Step

variable (hpipe : PipelineOk cfg s)

include hpipe

theorem merged_marked (hclean : ∀ r, s.restarting cfg = some r → s'.roundLog ≠ s.roundLog →
      s.dropsMerged r = false) (h : CarryOk s) (hs : PipeStep cfg s s')
    (hc' : s'.pipe.lateCarry = some c') (hr : .merged r ∈ s'.roundLog)
    (hm : r.pushes.find m = some push) : Marked c'.gathered m push.fragmentId push.baseVersion := by
  obtain ⟨c, hc, hmarks⟩ := hs.marks hpipe hc'
  have hold : Marked c.gathered m push.fragmentId push.baseVersion := by
    rcases merged_step hs hr with hr | ⟨hr, -⟩
    · exact h.merged c r m push hc hr hm
    · exact h.gathered c r m push hc hr hm
  cases hmarks with
  | same gathered _ =>
    rw [gathered]
    exact hold
  | accept gathered _ =>
    rw [gathered]
    exact marked_raise hold _
  | restart _ restarting old gathered _ log =>
    obtain ⟨t, p, a, gs, log⟩ := log
    have hdrops := hclean _ restarting (by rw [log]; exact append_ne_self.symm)
    have hr₀ : .merged r ∈ s.roundLog := by
      rcases merged_step hs hr with hr | ⟨-, hlog⟩
      · exact hr
      · rw [log] at hlog
        cases append_cancel_left hlog
    rw [gathered]
    refine marked_releaseAll hold fun e he hem hep => ?_
    exact dropsMerged_false hdrops he hr₀ (hem ▸ hm) hep

theorem gathered_marked (hans : cfg.fixedRoster = false → AnswersOk cfg s) (h : CarryOk s)
    (hs : PipeStep cfg s s') (hc' : s'.pipe.lateCarry = some c') (hr : r ∈ s'.pipe.rounds)
    (hm : r.pushes.find m = some push) : Marked c'.gathered m push.fragmentId push.baseVersion := by
  obtain ⟨c, hc, hmarks⟩ := hs.marks hpipe hc'
  cases hmarks with
  | same gathered log =>
    rw [gathered]
    rcases pushes_origin (hs.origin hpipe hr) hm with ⟨r₀, hr₀, old, hold, htaken⟩ | ⟨new, hlog, -⟩
    · exact marked_taken htaken (h.gathered c r₀ m old hc hr₀ hold)
    · exact absurd hlog (log m new)
  | @accept m₀ new gathered log =>
    rw [gathered]
    rcases pushes_origin (hs.origin hpipe hr) hm
      with ⟨r₀, hr₀, old, hold, htaken⟩ | ⟨new', hlog, htaken⟩
    · exact marked_raise (marked_taken htaken (h.gathered c r₀ m old hc hr₀ hold)) _
    · rw [log] at hlog
      cases append_cancel_left hlog
      exact marked_taken htaken marked_raise_self
  | @restart r₀ roster restarting old gathered others log =>
    obtain ⟨hx, ht⟩ := others r hr m push hm
    have hok := hans roster
    have hold := mem_rounds_inflight old
    -- The rounds are of different fragments, so the marks are different.
    have hne : r.p ≠ r₀.p := by
      intro heq
      have := inj_on_of_nodup_map hpipe.nodup_fragments hx hold heq
      exact ht (congrArg t this)
    rw [gathered]
    refine marked_releaseAll (h.gathered c r m push hc hx hm) ?_
    intro e he _ hep
    have hpush := ((hok.members r hx).answers m push hm).fragment
    have hdrop := ((hok.members r₀ hold).answers e.1 e.2
      ((r₀.pushes.mem_entries_iff e.1 e.2).1 he)).fragment
    exact absurd (hpush.symm.trans (hep.trans hdrop)) hne

end Step

theorem carriedOnce_step (h : CarryOk s) (hs : PipeStep cfg s s') :
    Upheld CarriedOnce s'.roundLog := by
  -- A delta carried before is below its mark, the new push is above it.
  have hnew : ∀ m push push', Fresh cfg s m push →
      .carried m push' ∈ s.roundLog → push'.fragmentId = push.fragmentId →
      push'.baseVersion < push.baseVersion := by
    intro m push push' hfresh hmem hp
    obtain ⟨c, hc, top, htop, hle⟩ := h.carried m push' hmem
    have hunspent := hfresh.unspent c hc
    unfold reusesAnchor at hunspent
    rw [← hp, htop] at hunspent
    have := of_decide_eq_false (any_some ▸ hunspent)
    omega
  rcases hs.roundLog with log | ⟨e, log⟩ <;> rw [log]
  · exact h.once
  · refine upheld_snoc.2 ⟨h.once, ?_, ?_⟩
    · rintro m push rfl
      obtain ⟨hfresh, c, c', hc, -, hgathered⟩ := hs.logSays log
      refine ⟨fun r push' hr hm hp => ?_, fun push' hmem hp => hnew m push push' hfresh hmem hp⟩
      obtain ⟨top, htop, hle⟩ := h.merged c r m push' hc hr hm
      rw [hp] at htop
      exact lt_of_le_of_lt hle (hgathered top htop)
    · rintro m push rfl push' hmem hp
      obtain ⟨r, -, hfresh, -⟩ := hs.logSays log
      exact hnew m push push' hfresh hmem hp

theorem carryOk_step (hpipe : PipelineOk cfg s) (hans : cfg.fixedRoster = false → AnswersOk cfg s)
    (hclean : ∀ r, s.restarting cfg = some r → s'.roundLog ≠ s.roundLog → s.dropsMerged r = false)
    (h : CarryOk s) (hs : PipeStep cfg s s') : CarryOk s' where
  carried m push hmem := by
    have hold : .carried m push ∈ s.roundLog → ∃ c, s'.pipe.lateCarry = some c
          ∧ Marked c.anchors m push.fragmentId push.baseVersion := by
      intro hmem
      obtain ⟨c, hc, hmark⟩ := h.carried m push hmem
      obtain ⟨c', hc', hrise⟩ := hs.anchors_rise hc
      exact ⟨c', hc', hrise _ _ _ hmark⟩
    rcases hs.roundLog with log | ⟨e, log⟩
    · exact hold (log ▸ hmem)
    · rw [log] at hmem
      rcases mem_append.1 hmem with hmem | hmem
      · exact hold hmem
      · rw [← mem_singleton.1 hmem] at log
        obtain ⟨-, c, c', -, hc', -⟩ := hs.logSays log
        exact ⟨_, hc', marked_raise_self⟩
  merged c r m push hc hr hm := merged_marked hpipe hclean h hs hc hr hm
  gathered c r m push hc hr hm := gathered_marked hpipe hans h hs hc hr hm
  once := carriedOnce_step h hs

theorem carryOk_new {i : Start cfg} : CarryOk (.new cfg i) := by
  refine ⟨?_, ?_, fun c r m push _ hmem => (nomatch hmem), ?_⟩ <;> rw [roundLog_new]
  · nofun
  · exact fun c r m push _ hmem => (nomatch hmem)
  · exact upheld_nil

theorem turn_of_restarting {op : Op} (h : s.exec n cfg op = .ok s') (hr : s.restarting cfg = some r)
    (hlog : s'.roundLog ≠ s.roundLog) : ∃ i, op = .turn i := by
  unfold restarting at hr
  split at hr
  · next k now submitted todo htodo =>
    exact turn_of_work h (w := .act k now submitted) (by rw [htodo]; rfl) rfl nofun hlog
  · cases hr

/-- In every run in which no restart drops a push of a base that was merged
before, a carried delta counts once. -/
theorem carried_once {i : Start cfg} (h : (syncer n cfg i (keepsMarks cfg)).Reachable s) :
    Upheld CarriedOnce s.log := by
  have hok : CarryOk s := by
    refine System.invariant (P := CarryOk) ?_ ?_ h
    · rintro s ⟨-, rfl⟩
      exact carryOk_new
    · rintro s s' hreach hok ⟨op, hallowed, hexec⟩
      refine carryOk_step (pipelineOk_reachable hreach)
        (fun hroster => answersOk_reachable hroster hreach) ?_ hok (exec_steps hexec).1
      intro r hr hlog
      obtain ⟨i, rfl⟩ := turn_of_restarting hexec hr hlog
      unfold keepsMarks at hallowed
      rw [hr] at hallowed
      simpa using hallowed
  refine hok.once.of_filter (fun pre e he => ⟨?_, ?_⟩) fun pre e hpre => ⟨?_, ?_⟩
  · rintro m push rfl
    cases he
  · rintro m push rfl
    cases he
  · intro m push heq
    refine ⟨fun r push' hr => ?_, fun push' hmem => ?_⟩
    · exact (hpre.1 m push heq).1 r push' (mem_filter.2 ⟨hr, rfl⟩)
    · exact (hpre.1 m push heq).2 push' (mem_filter.2 ⟨hmem, rfl⟩)
  · intro m push heq push' hmem
    exact hpre.2 m push heq push' (mem_filter.2 ⟨hmem, rfl⟩)

/-- One fragment, and merge weights by tokens: a round takes late deltas. -/
def carryConfig : Config :=
  { sampleConfig with
    schedule := ⟨0, 1, 1, Nat.one_pos, Nat.one_pos⟩
    layout := [⟨[1], .avg⟩]
    learnerWeight := .tokens2OverSteps
    pipeline := 1
    fragments := rfl }

def carryStart : Start carryConfig where
  globalStep := 0
  params := [[0]]
  membership := .new .default 2
  membershipRecord := none
  owned := .inl rfl
  shapes := rfl
  configured := sampleStart.configured
  nobody := sampleStart.nobody

def carryFirstRound : List (Op × Nat) := sampleOpening ++
  [(.wake (.push ⟨0, 1⟩ (samplePush ⟨0, 1⟩ 1 0 0 1) 1), 40),
   (.wake (.push ⟨1, 1⟩ (samplePush ⟨1, 1⟩ 1 0 0 1) 1), 40), (.wake (.computed 0 [1]), 40)]

def timeoutPass : List (Op × Nat) := List.replicate 12 (.turn { now := 20 }, 0)

/-- Learner 0 answers step 2 from the base of step 1, step 2 restarts, and
the push of step 1 is delivered once more. -/
def carryAgain : List (Op × Nat) :=
  carryFirstRound ++ [(.wake (.push ⟨0, 1⟩ (samplePush ⟨0, 1⟩ 2 0 0 1) 2), 40)] ++ timeoutPass
    ++ [(.wake (.push ⟨0, 1⟩ (samplePush ⟨0, 1⟩ 1 0 0 1) 21), 40)]

def carriedAgain : Syncer :=
  (Syncer.new carryConfig carryStart).ending bitNumerics carryConfig anyOp carryAgain

/-- The delta of step 1 is merged by its own round, and carried. -/
theorem carried_twice : (syncer bitNumerics carryConfig carryStart anyOp).Reachable carriedAgain
      ∧ ¬ Upheld CarriedOnce carriedAgain.log := by
  refine ⟨reachable_ending (reachable_new rfl anyOp) (by decide +kernel), fun h => ?_⟩
  have hlog : carriedAgain.log = carriedAgain.log.dropLast
      ++ [.carried ⟨0, 1⟩ (samplePush ⟨0, 1⟩ 1 0 0 1)] := by decide +kernel
  have hmerged : carriedAgain.log.dropLast.any (LogEntry.merges ⟨0, 1⟩
      (samplePush ⟨0, 1⟩ 1 0 0 1)) = true := by decide +kernel
  obtain ⟨e, he, hm⟩ := any_eq_true.1 hmerged
  obtain ⟨r, other, rfl, hfind, hp, hb⟩ := merges_iff.1 hm
  have := (h _ _ _ hlog).1 _ _ rfl |>.1 r other he hfind hp
  omega

def lateConfig : Config := { carryConfig with quorum := 1 }

def lateStart : Start lateConfig :=
  { carryStart with owned := .inl rfl, shapes := rfl, configured := rfl }

/-- Step 1 closes with the answer of learner 0, and that of learner 1 is
carried into step 2. -/
def lateDelta : List (Op × Nat) := sampleOpening ++
  [(.wake (.push ⟨0, 1⟩ (samplePush ⟨0, 1⟩ 1 0 0 1) 1), 40), (.wake (.computed 0 [1]), 40),
   (.wake (.push ⟨1, 1⟩ (samplePush ⟨1, 1⟩ 1 0 0 1) 1), 40)]

def carriedLate : Syncer := (Syncer.new lateConfig lateStart).ending bitNumerics lateConfig
    (keepsMarks lateConfig) lateDelta

theorem carried_once_sample : .carried ⟨1, 1⟩ (samplePush ⟨1, 1⟩ 1 0 0 1) ∈ carriedLate.log
      ∧ Upheld CarriedOnce carriedLate.log := ⟨by decide +kernel, carried_once (i := lateStart)
    (reachable_ending (reachable_new rfl _) (by decide +kernel))⟩

end Syncer

end Yeto.Server
