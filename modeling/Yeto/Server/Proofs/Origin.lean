/-
Where a round of the next state comes from. `PipeStep` says what an operation
does to the pipeline as a whole; `Origin` says for each uncommitted round after
it which round it was before, or that it was just launched, and what was logged.
-/
import Yeto.Server.Proofs.Commits

namespace Yeto.Server

open Lib Downlink List Round

namespace Syncer

variable {n : Numerics} {cfg : Config} {s s' : Syncer} {e : LogEntry} {x : Round}

/-- What a round of `s'` was in `s`. -/
inductive Origin (cfg : Config) (s s' : Syncer) (r' : Round) : Prop
  /-- It did not move, and no push was accepted for its step. -/
  | kept (old : r' ∈ s.pipe.rounds)
      (other : ∀ m push, s'.roundLog = s.roundLog ++ [.accepted m push] → push.globalStep ≠ r'.t)
  | quiet {r : Round} (old : r ∈ s.pipe.rounds) (quiet : Quiet s.reg r r')
      (log : s'.roundLog = s.roundLog)
  | launch {now : Nat} (round : r' = (attachLate s.pipe.lateCarry
        (Round.launch cfg s.st.versions s.pipe.nextT (cfg.schedule.fragmentForStep s.pipe.nextT)
          (s.launchGroups.map Group.member) now)).2)
      (log : s'.roundLog = s.roundLog ++ [.launched s.pipe.nextT
          (cfg.schedule.fragmentForStep s.pipe.nextT) 1 s.launchGroups])
  | restart {r : Round} {clock : Nat} (old : r ∈ s.pipe.inflight) (roster : cfg.fixedRoster = false)
      (round : r' = r.restart cfg s.st.versions (s.reg.currentGroups.map Group.member) clock)
      (log : s'.roundLog = s.roundLog ++ [.launched r.t r.p (r.attempt + 1) s.reg.currentGroups])
  | prepared {r : Round} {now : Nat} {merge : PreparedMerge}
      (old : r ∈ s.pipe.inflight) (complete : r.action now = .complete)
      (prepare : prepareRoundCompute cfg s.st.versions r = .ok (r', merge))
      (log : s'.roundLog = s.roundLog)
  | accept {r : Round} {m : Member} {push : Push} (old : r ∈ s.pipe.inflight)
      (fresh : Fresh cfg s m push) (accepts : Round.Accepts cfg m push r)
      (round : r' = Round.advanceFold cfg { r with pushes := r.pushes.insert m push } m)
      (log : s'.roundLog = s.roundLog ++ [.accepted m push])
  | carry {r : Round} {m : Member} {push : Push} (old : r ∈ s.pipe.inflight)
      (fresh : Fresh cfg s m push) (buffered : r.fold.any RoundFold.isExact = false)
      (base : push.baseVersion ≤ r.baseVersion)
      (round : r' = { r with carried := r.carried ++ [(m, push)] })
      (log : s'.roundLog = s.roundLog ++ [.carried m push])

variable {r : Round}

theorem mem_rounds {pipe : Pipeline} :
    r ∈ pipe.rounds ↔ r ∈ pipe.inflight ∨ r ∈ pipe.computing.map Prod.fst
      ∨ ∃ t c, pipe.ready.find t = some c ∧ c.round = r := by
  unfold Pipeline.rounds
  rw [mem_append, mem_append, mem_map, mem_map]
  refine or_congr_right (or_congr_right ⟨?_, ?_⟩)
  · rintro ⟨c, hc, rfl⟩
    obtain ⟨t, ht⟩ := (pipe.ready.mem_values_iff c).1 hc
    exact ⟨t, c, ht, rfl⟩
  · rintro ⟨t, c, ht, rfl⟩
    exact ⟨c, (pipe.ready.mem_values_iff c).2 ⟨t, ht⟩, rfl⟩

theorem mem_rounds_inflight (h : r ∈ s.pipe.inflight) : r ∈ s.pipe.rounds := mem_rounds.2 (.inl h)

theorem append_ne_self {log : List LogEntry} :
    log ≠ log ++ [e] := fun h => absurd (congrArg List.length h) (by simp)

theorem roundLog_new (i : Start cfg) : (Syncer.new cfg i).roundLog = [] := by
  unfold roundLog Syncer.new
  split <;> rfl

theorem Origin.same (h : r ∈ s.pipe.rounds)
    (hlog : s'.roundLog = s.roundLog) : Origin cfg s s' r := by
  refine .kept h fun m push heq => ?_
  rw [hlog] at heq
  exact absurd heq append_ne_self

theorem Origin.aside (h : r ∈ s.pipe.rounds) (hlog : s'.roundLog = s.roundLog ++ [e])
    (hacc : ∀ m push, e ≠ .accepted m push) : Origin cfg s s' r := by
  refine .kept h fun m push heq => ?_
  rw [hlog] at heq
  exact absurd (List.cons.inj (append_cancel_left heq)).1 (hacc m push)

variable {l₁ l₂ : List Round}

theorem PipelineOk.steps_split (h : PipelineOk cfg s) (hl : s.pipe.inflight = l₁ ++ r :: l₂)
    (hx : x ∈ l₁ ∨ x ∈ l₂ ∨ x ∈ s.pipe.computing.map Prod.fst
      ∨ ∃ t c, s.pipe.ready.find t = some c ∧ c.round = x) : x.t ≠ r.t := by
  have hsteps : (s.pipe.rounds.map t).Nodup := by
    have := h.steps
    unfold Pipeline.keys at this
    rwa [map_map] at this
  have hperm : s.pipe.rounds.Perm (r :: (l₁ ++ l₂ ++ (s.pipe.computing.map Prod.fst
        ++ s.pipe.ready.values.map ComputedRound.round))) := by
    unfold Pipeline.rounds
    rw [hl, append_assoc, append_assoc, cons_append]
    exact perm_middle
  have hnot := (nodup_cons.1 ((hperm.map t).nodup_iff.1 hsteps)).1
  intro heq
  refine hnot (mem_map.2 ⟨x, ?_, heq⟩)
  rw [mem_append, mem_append, mem_append]
  rcases hx with hx | hx | hx | ⟨t, c, hc, rfl⟩
  · exact .inl (.inl hx)
  · exact .inl (.inr hx)
  · exact .inr (.inl hx)
  · exact .inr (.inr (mem_map_of_mem ((s.pipe.ready.mem_values_iff c).2 ⟨t, hc⟩)))

theorem exists_of_forall₂ {α β : Type*} {R : α → β → Prop} {l : List α}
    {l' : List β} (h : List.Forall₂ R l l') {b : β} (hb : b ∈ l') : ∃ a ∈ l, R a b := by
  induction h with
  | nil => cases hb
  | cons hab _ ih =>
    rcases mem_cons.1 hb with rfl | hb
    · exact ⟨_, mem_cons_self, hab⟩
    · obtain ⟨a, ha, hr⟩ := ih hb
      exact ⟨a, mem_cons_of_mem _ ha, hr⟩

theorem exists_split_set {rounds : List Round} {k : Nat} (hk : rounds[k]? = some r) (r' : Round) :
    ∃ l₁ l₂, rounds = l₁ ++ r :: l₂ ∧ rounds.set k r' = l₁ ++ r' :: l₂ := by
  obtain ⟨hlt, rfl⟩ := List.getElem?_eq_some_iff.1 hk
  obtain ⟨l₁, l₂, hl, -, hset⟩ := exists_of_set hlt
  exact ⟨l₁, l₂, hl, hset⟩

theorem origin_replace (s : Syncer) {new : Round} (hinflight : s'.pipe.inflight = l₁ ++ new :: l₂)
    (hcomputing : s'.pipe.computing = s.pipe.computing) (hready : s'.pipe.ready = s.pipe.ready)
    (hx : x ∈ s'.pipe.rounds) : x = new ∨ x ∈ l₁ ∨ x ∈ l₂ ∨ x ∈ s.pipe.computing.map Prod.fst
      ∨ ∃ t c, s.pipe.ready.find t = some c ∧ c.round = x := by
  rw [mem_rounds, hinflight, hcomputing, hready, mem_append, mem_cons] at hx
  tauto

theorem mem_rounds_rest (hl : s.pipe.inflight = l₁ ++ r :: l₂)
    (hx : x ∈ l₁ ∨ x ∈ l₂ ∨ x ∈ s.pipe.computing.map Prod.fst
      ∨ ∃ t c, s.pipe.ready.find t = some c ∧ c.round = x) : x ∈ s.pipe.rounds := by
  rw [mem_rounds, hl, mem_append, mem_cons]
  tauto

theorem PipeStep.origin (h : PipelineOk cfg s) (hs : PipeStep cfg s s') (hx : x ∈ s'.pipe.rounds) :
    Origin cfg s s' x := by
  cases hs with
  | @quiet inflight rounds pipe cut log =>
    rw [mem_rounds, pipe] at hx
    rcases hx with hx | hx
    · obtain ⟨r, hr, hq⟩ := exists_of_forall₂ rounds hx
      exact .quiet (mem_rounds_inflight hr) hq log
    · exact .same (mem_rounds.2 (.inr hx)) log
  | @launch now bound free some pipe cut log =>
    rw [mem_rounds, pipe] at hx
    have hold : x ∈ s.pipe.rounds → Origin cfg s s' x := fun hmem =>
      .aside hmem log fun _ _ => nofun
    rcases hx with hx | hx
    · rcases mem_append.1 hx with hx | hx
      · exact hold (mem_rounds_inflight hx)
      · exact .launch (mem_singleton.1 hx) log
    · exact hold (mem_rounds.2 (.inr hx))
  | @restart k now clock submitted r round roster enough pipe cut log =>
    obtain ⟨l₁, l₂, hl, hset⟩ := exists_split_set round
      (r.restart cfg s.st.versions (s.reg.currentGroups.map Group.member) clock)
    have hin : r ∈ s.pipe.inflight := mem_of_getElem? round
    rcases origin_replace s (by rw [pipe]; exact hset)
      (by rw [pipe]) (by rw [pipe]) hx with rfl | hrest
    · exact .restart hin roster rfl log
    · exact .aside (mem_rounds_rest hl hrest) log fun _ _ => nofun
  | @submit k now r prepared round complete prepare pipe cut log =>
    rw [mem_rounds, pipe] at hx
    rcases hx with hx | hx | hx
    · exact .same (mem_rounds_inflight (mem_of_mem_eraseIdx hx)) log
    · rw [map_append, mem_append] at hx
      rcases hx with hx | hx
      · exact .same (mem_rounds.2 (.inr (.inl hx))) log
      · obtain rfl : x = prepared.1 := mem_singleton.1 hx
        exact .prepared (mem_of_getElem? round) complete prepare log
    · exact .same (mem_rounds.2 (.inr (.inr hx))) log
  | @computed i round merge values job pipe cut log =>
    refine .same ?_ log
    rw [mem_rounds, pipe] at hx
    rcases hx with hx | hx | ⟨t, c, hc, rfl⟩
    · exact mem_rounds_inflight hx
    · obtain ⟨e, he, rfl⟩ := mem_map.1 hx
      exact mem_rounds.2 (.inr (.inl (mem_map_of_mem (mem_of_mem_eraseIdx he))))
    · obtain ⟨-, rfl⟩ | ⟨-, hc⟩ := SortedMap.find_insert_cases hc
      · exact mem_rounds.2 (.inr (.inl (mem_map_of_mem (mem_of_getElem? job))))
      · exact mem_rounds.2 (.inr (.inr ⟨t, c, hc, rfl⟩))
  | @accept member push inflight fresh route pipe cut log =>
    obtain ⟨l₁, r, l₂, hl, hacc, hl'⟩ := routePush_accepted route
    have hin : r ∈ s.pipe.inflight := hl ▸ mem_append_cons_self
    rcases origin_replace s (by rw [pipe]; exact hl')
      (by rw [pipe]) (by rw [pipe]) hx with rfl | hrest
    · exact .accept hin fresh hacc rfl log
    · refine .kept (mem_rounds_rest hl hrest) fun m q heq => ?_
      rw [log] at heq
      cases append_cancel_left heq
      exact fun heq' => h.steps_split hl hrest (heq'.symm.trans hacc.names.1.symm)
  | @carry member push c c' outcome inflight fresh late closed carry taken pipe cut log =>
    have haside : x ∈ s.pipe.rounds → Origin cfg s s' x := fun hmem =>
      .aside hmem log fun _ _ => nofun
    obtain ⟨-, -, -, -, ⟨l₁, r, l₂, hl, -, hexact, hbase, -, hl'⟩
      | ⟨hsame, -⟩⟩ := carry_taken carry taken
    · have hin : r ∈ s.pipe.inflight := hl ▸ mem_append_cons_self
      rcases origin_replace s (by rw [pipe]; exact hl')
        (by rw [pipe]) (by rw [pipe]) hx with rfl | hrest
      · exact .carry hin fresh hexact hbase rfl log
      · exact haside (mem_rounds_rest hl hrest)
    · rw [mem_rounds, pipe] at hx
      refine haside (mem_rounds.2 ?_)
      rwa [hsame] at hx
  | @commit c next settled contiguous base pipe versions globalStep log =>
    refine .aside (mem_rounds.2 ?_) log fun _ _ => nofun
    have hrest : x ∈ s.pipe.inflight ∨ x ∈ s.pipe.computing.map Prod.fst
        ∨ ∃ t c', (s.pipe.ready.erase s.pipe.nextCommitT).find t = some c' ∧ c'.round = x := by
      rw [mem_rounds] at hx
      rcases pipe with ⟨-, -, pipe⟩ | ⟨-, pipe⟩ <;>
      · rw [pipe] at hx
        exact hx
    rcases hrest with hx | hx | ⟨t, c', hc', rfl⟩
    · exact .inl hx
    · exact .inr (.inl hx)
    · exact .inr (.inr ⟨t, c', (SortedMap.find_erase_cases hc').2, rfl⟩)
  | settle _ _ pipe _ log | written _ pipe _ log =>
    refine .same ?_ log
    rw [mem_rounds, pipe] at hx
    exact mem_rounds.2 hx

theorem PipelineOk.round_iff (h : PipelineOk cfg s) {t : Nat} :
    (∃ r ∈ s.pipe.rounds, r.t = t) ↔ cfg.schedule.ownsStep t = true
      ∧ s.pipe.nextCommitT ≤ t ∧ t < s.pipe.nextT := by
  rw [← h.contiguous t]
  simp [Pipeline.keys, key]

theorem PipeStep.roundLog (hs : PipeStep cfg s s') :
    s'.roundLog = s.roundLog ∨ ∃ e, s'.roundLog = s.roundLog ++ [e] := by
  cases hs with
  | launch _ _ _ _ _ log | restart _ _ _ _ _ log | accept _ _ _ _ log
  | carry _ _ _ _ _ _ _ log | commit _ _ _ _ _ _ _ log => exact .inr ⟨_, log⟩
  | quiet _ _ _ log | submit _ _ _ _ _ log | computed _ _ _ log
  | settle _ _ _ _ log | written _ _ _ log => exact .inl log

theorem PipeStep.nextT_le (hs : PipeStep cfg s s') : s.pipe.nextT ≤ s'.pipe.nextT := by
  cases hs with
  | launch _ _ _ pipe =>
    rw [pipe]
    exact Nat.le_of_lt (cfg.schedule.lt_stepAfter _)
  | commit _ _ _ _ pipe => rcases pipe with ⟨-, -, pipe⟩ | ⟨-, pipe⟩ <;> rw [pipe]
  | quiet _ pipe | restart _ _ _ pipe | submit _ _ _ pipe | computed _ pipe
  | accept _ _ pipe | carry _ _ _ _ _ pipe | settle _ _ pipe
  | written _ pipe => rw [pipe]

theorem PipeStep.round_stays (h : PipelineOk cfg s) (h' : PipelineOk cfg s')
    (hs : PipeStep cfg s s') {t : Nat} (ht : ∃ r ∈ s.pipe.rounds, r.t = t) :
    (∃ r ∈ s'.pipe.rounds, r.t = t) ∨ ∃ r, s'.roundLog = s.roundLog ++ [.merged r] ∧ r.t = t := by
  have hnext := hs.nextT_le
  obtain ⟨hown, hle, hlt⟩ := h.round_iff.1 ht
  have hstays : s'.pipe.nextCommitT = s.pipe.nextCommitT →
      ∃ r ∈ s'.pipe.rounds, r.t = t := fun heq =>
    h'.round_iff.2 ⟨hown, heq ▸ hle, lt_of_lt_of_le hlt hnext⟩
  cases hs with
  | quiet _ pipe | launch _ _ _ pipe | restart _ _ _ pipe | submit _ _ _ pipe
  | computed _ pipe | accept _ _ pipe | carry _ _ _ _ _ pipe
  | settle _ _ pipe | written _ pipe =>
    refine .inl (hstays ?_)
    rw [pipe]
  | @commit c next settled contiguous base pipe versions globalStep log =>
    have hc := (h.ready _ _ next).1
    by_cases heq : t = c.round.t
    · exact .inr ⟨c.round, log, heq.symm⟩
    refine .inl (h'.round_iff.2 ⟨hown, ?_, lt_of_lt_of_le hlt hnext⟩)
    have hnc : s'.pipe.nextCommitT = cfg.schedule.stepAfter s.pipe.nextCommitT := by
      rcases pipe with ⟨-, -, pipe⟩ | ⟨-, pipe⟩ <;> rw [pipe]
    -- No owned step lies between two commits.
    rw [hnc]
    exact cfg.schedule.stepAfter_le hown (by omega)

/-- What a new entry of the log says: a push is accepted where an open
round took it, carried where no round takes it and its anchor is neither
spent nor gathered, and is spent now; a round is merged where it was the
next to commit. -/
def LogSays (cfg : Config) (s s' : Syncer) : LogEntry → Prop
  | .accepted m push => ∃ r ∈ s.pipe.inflight, Fresh cfg s m push ∧ Round.Accepts cfg m push r
  | .merged r => r ∈ s.pipe.rounds
  | .carried m push => Fresh cfg s m push ∧ ∃ c c' : LateCarry, s.pipe.lateCarry = some c
      ∧ s'.pipe.lateCarry = some (c'.spendAnchor m push.fragmentId push.baseVersion)
      ∧ ∀ taken, c.gathered.find (anchorKey m push.fragmentId) = some taken →
        taken < push.baseVersion
  | _ => True

theorem PipeStep.logSays (hs : PipeStep cfg s s') (hlog : s'.roundLog = s.roundLog ++ [e]) :
    LogSays cfg s s' e := by
  cases hs with
  | accept fresh route _ _ log =>
    cases append_cancel_left (hlog.symm.trans log)
    obtain ⟨l₁, r, l₂, hl, hacc, -⟩ := routePush_accepted route
    exact ⟨r, hl ▸ mem_append_cons_self, fresh, hacc⟩
  | @carry _ _ c c' _ _ fresh late _ carry taken pipe _ log =>
    cases append_cancel_left (hlog.symm.trans log)
    refine ⟨fresh, c, c', late, ?_, (carry_taken carry taken).2.2.2.1⟩
    rw [pipe]
  | @commit c next _ _ _ _ _ _ log =>
    cases append_cancel_left (hlog.symm.trans log)
    exact mem_rounds.2 (.inr (.inr ⟨_, c, next, rfl⟩))
  | quiet _ _ _ log | submit _ _ _ _ _ log | computed _ _ _ log
  | settle _ _ _ _ log | written _ _ _ log => exact absurd (log.symm.trans hlog) append_ne_self
  | launch _ _ _ _ _ log | restart _ _ _ _ _ log =>
    cases append_cancel_left (hlog.symm.trans log)
    trivial

end Syncer

end Yeto.Server
