/-
No group is in two batches whose optimizer step was applied.

`Fits` is what a call has checked of a record when it appends it. One record
that fits makes one turn of one batch (`turn_of_replay`) and keeps the marks
of the trained groups. The file holds whole records and at most a torn one
behind them (`Holds`). Two batches prepared with one group are both applied,
and superseding one frees the group of the other (`group_applied_twice`).
-/
import Mathlib.Logic.Equiv.List
import Mathlib.Tactic.DeriveEncodable
import Yeto.Batches.Model
import Yeto.Lib.Guards

namespace Yeto.Batches

open Lib List SortedMap Ledger BatchState

variable {G D : Type} [LinearOrder G] {l l' : Ledger G D} {r : Record G D} {rid : Int}
  {records : List (Record G D)} {b : Batch G D} {kind : BatchState} {g : G} {batch : Handle G D}
  {start : Int}

theorem find_eraseAll {α : Type} (g : G) : ∀ (ids : List G) (m : SortedMap G α),
    (eraseAll m ids).find g = if g ∈ ids then none else m.find g
  | [], m => by simp [eraseAll]
  | x :: ids, m => by
    show (eraseAll (m.erase x) ids).find g = _
    rw [find_eraseAll g ids, find_erase]
    by_cases h : g ∈ ids <;> by_cases hx : g = x <;> simp [h, hx]

theorem find_insertAll {α : Type} (v : α) (g : G) : ∀ (ids : List G) (m : SortedMap G α),
      (insertAll m ids v).find g = if g ∈ ids then some v else m.find g
  | [], m => by simp [insertAll]
  | x :: ids, m => by
    show (insertAll (m.insert x v) ids v).find g = _
    rw [find_insertAll v g ids, find_insert]
    by_cases h : g ∈ ids <;> by_cases hx : g = x <;> simp [h, hx]

def BatchState.moves : BatchState → BatchState → Bool
  | .prepared, .optimizerApplied | .prepared, .discarded => true
  | .optimizerApplied, .outerRecorded | .optimizerApplied, .superseded => true
  | _, _ => false

/-- What holds of a record when it is appended. -/
def Ledger.Fits (l : Ledger G D) : Record G D → Prop
  | .prepared rid attempt _ _ =>
    (∀ b, l.batches.find rid = some b → b.state.trained = false)
    ∧ attempt = (l.batches.find rid).elim 0 (·.attempt + 1)
  | .state rid kind => ∃ b, l.batches.find rid = some b ∧ b.state.moves kind = true
      ∧ (kind = .optimizerApplied → ∀ g ∈ b.groupIds, l.consumedGroups.find g = none)
  | _ => True

/-- One turn of the batch of a rollout id: it stays what it is, with one
move of its state at most, or it is prepared, the first time or again. -/
inductive Turn : Option (Batch G D) → Option (Batch G D) → Prop
  | absent : Turn none none
  | moved {b b' : Batch G D} : b'.attempt = b.attempt →
      b'.groupIds = b.groupIds → b'.data = b.data →
      (b'.state = b.state ∨ b.state.moves b'.state = true) → Turn (some b) (some b')
  | first {b : Batch G D} : b.attempt = 0 → b.state = .prepared → Turn none (some b)
  | again {b b' : Batch G D} : b.state.trained = false →
      b'.attempt = b.attempt + 1 → b'.state = .prepared → Turn (some b) (some b')

omit [LinearOrder G] in
theorem Turn.same : ∀ b : Option (Batch G D), Turn b b
  | none => .absent
  | some _ => .moved rfl rfl rfl (.inl rfl)

theorem replay_state (hb : l.batches.find rid = some b) :
    l.replay (.state rid kind) = some (l.setState rid kind b) := congrArg (Option.map _) hb

theorem replay_of_fits (hfits : l.Fits r) : ∃ l', l.replay r = some l' := by
  cases r with
  | state rid kind =>
    obtain ⟨b, hb, -⟩ := hfits
    exact ⟨_, replay_state hb⟩
  | _ => exact ⟨_, rfl⟩

theorem turn_of_replay (hfits : l.Fits r) (h : l.replay r = some l')
    (rid : Int) : Turn (l.batches.find rid) (l'.batches.find rid) := by
  cases r with
  | prepared rid₁ attempt ids data =>
    obtain rfl := Option.some.inj h
    rw [find_insert]
    split
    · next heq =>
      subst heq
      obtain ⟨hidle, hattempt⟩ := hfits
      cases hb : l.batches.find rid with
      | none => exact .first (by rw [hattempt, hb]; rfl) rfl
      | some b => exact .again (hidle b hb) (by rw [hattempt, hb]; rfl) rfl
    · exact .same _
  | state rid₁ kind =>
    obtain ⟨b, hb, hmoves, -⟩ := hfits
    obtain rfl := Option.some.inj ((replay_state hb).symm.trans h)
    show Turn _ (SortedMap.find (SortedMap.insert _ _ _) _)
    rw [find_insert]
    split
    · next heq =>
      subst heq
      rw [hb]
      exact .moved rfl rfl rfl (.inr hmoves)
    · exact .same _
  | filtered rid₁ detail ids =>
    obtain rfl := Option.some.inj h
    rw [find_update]
    split
    · next heq =>
      subst heq
      cases l.batches.find rid with
      | none => exact .absent
      | some b => exact .moved rfl rfl rfl (.inl rfl)
    · exact .same _
  | _ =>
    obtain rfl := Option.some.inj h
    exact .same _

/-- The group is in the batch of `rid`, and the batch is trained. -/
def Ledger.Trains (l : Ledger G D) (rid : Int) (g : G) : Prop :=
  ∃ b, l.batches.find rid = some b ∧ b.state.trained = true ∧ g ∈ b.groupIds

theorem trains_iff (hb : l.batches.find rid = some b) :
    l.Trains rid g ↔ b.state.trained = true ∧ g ∈ b.groupIds := by simp [Ledger.Trains, hb]

/-- The groups that are marked are those of the trained batches. -/
def Ledger.Marked (l : Ledger G D) : Prop :=
  ∀ g rid, l.consumedGroups.find g = some rid ↔ l.Trains rid g

theorem Ledger.Marked.quiet (hmarked : l.Marked) (hconsumed : l'.consumedGroups = l.consumedGroups)
    (htrains : ∀ rid g, l'.Trains rid g ↔ l.Trains rid g) : l'.Marked :=
  fun g rid => by rw [hconsumed, hmarked g rid, htrains rid g]

theorem marked_of_state (hmarked : l.Marked) (hfits : l.Fits (.state rid kind))
    (h : l.replay (.state rid kind) = some l') : l'.Marked := by
  obtain ⟨b, hb, hmoves, hfresh⟩ := hfits
  obtain rfl := Option.some.inj ((replay_state hb).symm.trans h)
  intro g rid₁
  have hown := (hmarked g rid).trans (trains_iff hb)
  have hafter : (l.setState rid kind b).Trains rid₁ g ↔ if rid₁ = rid
      then kind.trained = true ∧ g ∈ b.groupIds
      else l.consumedGroups.find g = some rid₁ := by
    split
    · next heq =>
      subst heq
      rw [trains_iff (find_insert_self l.batches rid₁ _)]
    · next hne =>
      rw [hmarked]
      show (∃ b', SortedMap.find (SortedMap.insert _ _ _) _ = some b' ∧ _) ↔ _
      rw [find_insert_ne _ _ hne]
      rfl
  rw [hafter]
  have hcases : (b.state = .prepared ∧ kind = .optimizerApplied)
      ∨ (b.state = .optimizerApplied ∧ kind = .superseded)
      ∨ (b.state = .prepared ∧ kind = .discarded)
      ∨ (b.state = .optimizerApplied ∧ kind = .outerRecorded) := by
    revert hmoves
    cases b.state <;> cases kind <;> simp [moves]
  obtain ⟨hstate, rfl⟩ | ⟨hstate, rfl⟩ | ⟨hstate, rfl⟩ | ⟨hstate, rfl⟩ := hcases
    <;> simp only [hstate, trained, true_and, false_and, Bool.false_eq_true, iff_false] at hown ⊢
  · -- its groups were marked for no batch
    show (insertAll _ _ _).find g = _ ↔ _
    rw [find_insertAll]
    by_cases hg : g ∈ b.groupIds
    · simp [hg, hfresh rfl g hg, eq_comm]
    · by_cases heq : rid₁ = rid <;> simp [hg, heq, hown]
  · -- its groups were marked for it alone
    show (eraseAll _ _).find g = _ ↔ _
    rw [find_eraseAll]
    by_cases hg : g ∈ b.groupIds
    · simp [hg, hown.2 hg, eq_comm]
    · by_cases heq : rid₁ = rid <;> simp [hg, heq, hown]
  all_goals
    show l.consumedGroups.find g = _ ↔ _
    by_cases heq : rid₁ = rid <;> simp [heq, hown]

theorem marked_of_replay (hmarked : l.Marked) (hfits : l.Fits r)
    (h : l.replay r = some l') : l'.Marked := by
  cases r with
  | prepared rid attempt ids data =>
    obtain rfl := Option.some.inj h
    refine hmarked.quiet rfl fun rid₁ g => ?_
    unfold Ledger.Trains
    rw [find_insert]
    split
    · next heq =>
      subst heq
      -- neither the batch that is replaced nor the new one is trained
      cases hb : l.batches.find rid₁ with
      | none => simp [trained]
      | some b =>
        have hidle := hfits.1 b hb
        simp only [trained] at hidle
        simp [trained, hidle]
    · rfl
  | state rid kind => exact marked_of_state hmarked hfits h
  | filtered rid detail ids =>
    obtain rfl := Option.some.inj h
    refine hmarked.quiet rfl fun rid₁ g => ?_
    unfold Ledger.Trains
    rw [find_update]
    split
    · next heq =>
      subst heq
      cases l.batches.find rid₁ <;> simp
    · rfl
  | _ =>
    obtain rfl := Option.some.inj h
    exact hmarked.quiet rfl fun _ _ => Iff.rfl

/-- Every record fits when its turn comes. -/
def Ledger.Follows : Ledger G D → List (Record G D) → Prop
  | _, [] => True
  | l, r :: rest => l.Fits r ∧ ∀ l', l.replay r = some l' → l'.Follows rest

theorem follows_of_plain : ∀ (records : List (Record G D)) (l : Ledger G D),
    (∀ r ∈ records, ∀ l : Ledger G D, l.Fits r) → l.Follows records
  | [], _, _ => trivial
  | _ :: records, l, h =>
    ⟨h _ mem_cons_self l, fun l' _ => follows_of_plain records l'
      fun r hr => h r (mem_cons_of_mem _ hr)⟩

theorem follows_prepare (h : l.prepare batch = .ok records) : l.Follows records := by
  dsimp only [prepare] at h
  split at h
  · cases h
  -- behind the first record nothing is asked for
  have hplain (rid : Int) : ∀ r ∈ (batch.detail.toList.map fun detail =>
        Record.filtered rid detail []) ++ (if batch.abortedInFlightGroups = 0 then []
        else [.engineDiscarded rid batch.abortedInFlightGroups])
      ++ [.carriedOverReport rid batch.report], ∀ l : Ledger G D, l.Fits r := by
    intro r hr l
    simp only [mem_append, mem_map, mem_singleton] at hr
    rcases hr with (⟨_, -, rfl⟩ | hr) | rfl
    · trivial
    · split at hr
      · cases hr
      · obtain rfl := mem_singleton.1 hr
        trivial
    · trivial
  split at h
  · next hnone =>
    cases h
    refine ⟨⟨?_, ?_⟩, fun l' _ => follows_of_plain _ l' (hplain _)⟩
    · exact fun b hb => nomatch hnone.symm.trans hb
    · rw [hnone]
      rfl
  · next previous hprevious =>
    obtain ⟨htrained, ⟨⟩⟩ := of_then_error h
    refine ⟨⟨?_, ?_⟩, fun l' _ => follows_of_plain _ l' (hplain _)⟩
    · intro b hb
      obtain rfl := Option.some.inj (hprevious.symm.trans hb)
      exact Bool.eq_false_iff.2 htrained
    · rw [hprevious]
      rfl

theorem follows_single (hfits : l.Fits r) : l.Follows [r] := ⟨hfits, fun _ _ => trivial⟩

theorem follows_advance {target : BatchState} (h : l.advance rid target = .ok records)
    (hfresh : target = .optimizerApplied → ∀ b, l.batches.find rid = some b →
      b.state = .prepared → ∀ g ∈ b.groupIds, l.consumedGroups.find g = none) :
    l.Follows records := by
  unfold Ledger.advance at h
  split at h
  · cases h
  next b hb =>
  split at h
  · cases h
    trivial
  obtain ⟨horder, ⟨⟩⟩ := of_then_error h
  have hmoves : b.state.moves target = true
      ∧ (target = .optimizerApplied → b.state = .prepared) := by
    revert horder
    cases b.state <;> cases target <;> simp [order, moves]
  exact follows_single ⟨b, hb, hmoves.1, fun htarget => hfresh htarget b hb (hmoves.2 htarget)⟩

theorem follows_discard : l.Follows (l.discard rid) := by
  unfold Ledger.discard
  split
  · trivial
  · next b hb =>
    split
    · next hstate => exact follows_single ⟨b, hb, by rw [hstate]; rfl, nofun⟩
    · trivial

theorem rebased_moves {state : BatchState} (h : rebased start rid state = some kind) :
    state.moves kind = true ∧ kind ≠ .optimizerApplied := by
  unfold rebased at h
  split at h
  · obtain rfl := Option.some.inj h
    split <;> exact ⟨rfl, nofun⟩
  · split at h
    · obtain rfl := Option.some.inj h
      exact ⟨rfl, nofun⟩
    · cases h
  · cases h

/-- The batches are different ones, so that a record leaves the rest of the
list as it was when `rebase` looked at it. -/
theorem follows_rebased (start : Int) : ∀ (es : List (Int × Batch G D))
    (l : Ledger G D), (es.map Prod.fst).Nodup → (∀ e ∈ es, l.batches.find e.1 = some e.2) →
    l.Follows (es.filterMap fun e =>
      (rebased start e.1 e.2.state).map (Record.state e.1))
  | [], _, _, _ => trivial
  | e :: es, l, hnd, hfind => by
    obtain ⟨hnew, hrest⟩ := nodup_cons.1 hnd
    have htail := fun e' he' => hfind e' (mem_cons_of_mem _ he')
    cases hkind : rebased start e.1 e.2.state with
    | none =>
      rw [filterMap_cons_none (by rw [hkind]; rfl)]
      exact follows_rebased start es l hrest htail
    | some kind =>
      rw [filterMap_cons_some (by rw [hkind]; rfl)]
      have hb := hfind e mem_cons_self
      obtain ⟨hmoves, hne⟩ := rebased_moves hkind
      refine ⟨⟨e.2, hb, hmoves, fun h => absurd h hne⟩, fun l' hl' => ?_⟩
      refine follows_rebased start es l' hrest fun e' he' => ?_
      obtain rfl := Option.some.inj ((replay_state hb).symm.trans hl')
      have hother : e'.1 ≠ e.1 := fun h =>
        hnew (h ▸ mem_map_of_mem he')
      show SortedMap.find (SortedMap.insert _ _ _) _ = _
      rw [find_insert_ne _ _ hother]
      exact htail e' he'

/-- The batches as `rebase` goes through them. -/
def Ledger.ordered (l : Ledger G D) (start : Int) : List (Int × Batch G D) :=
  l.batches.entries.filter (decide <| start ≤ ·.1)
    ++ l.batches.entries.filter (decide <| ·.1 < start)

theorem mem_ordered {e : Int × Batch G D} :
    e ∈ l.ordered start ↔ l.batches.find e.1 = some e.2 := by
  unfold Ledger.ordered
  rw [← l.batches.mem_entries_iff, mem_append, mem_filter, mem_filter, ← and_or_left,
    decide_eq_true_eq, decide_eq_true_eq]
  exact and_iff_left (le_or_gt start e.1)

theorem nodup_ordered : ((l.ordered start).map Prod.fst).Nodup := by
  have hkeys := l.batches.nodup_keys
  unfold Ledger.ordered
  rw [map_append, nodup_append]
  refine ⟨hkeys.sublist (filter_sublist.map _), hkeys.sublist (filter_sublist.map _), ?_⟩
  intro a ha b hb
  obtain ⟨e, he, rfl⟩ := mem_map.1 ha
  obtain ⟨e', he', rfl⟩ := mem_map.1 hb
  have h1 := of_decide_eq_true (mem_filter.1 he).2
  have h2 := of_decide_eq_true (mem_filter.1 he').2
  omega

theorem rebase_ok_iff : l.rebase start = .ok records
    ↔ (∀ rid b, l.batches.find rid = some b → start ≤ rid → b.state ≠ .outerRecorded)
      ∧ records = (l.ordered start).filterMap fun e =>
        (rebased start e.1 e.2.state).map (.state e.1) := by
  have hrecorded : (l.batches.entries.filter (decide <| start ≤ ·.1)).filter
        (decide <| ·.2.state = .outerRecorded) = []
      ↔ ∀ rid b, l.batches.find rid = some b → start ≤ rid → b.state ≠ .outerRecorded := by
    simp only [filter_eq_nil_iff, mem_filter, decide_eq_true_eq, Prod.forall,
      l.batches.mem_entries_iff, and_imp]
  rw [← hrecorded]
  unfold Ledger.rebase
  dsimp only
  split
  · next hne => exact ⟨nofun, fun h => absurd h.1 hne⟩
  · next hnil =>
    rw [not_not] at hnil
    exact ⟨fun h => ⟨hnil, (Except.ok.inj h).symm⟩, fun h => congrArg _ h.2.symm⟩

theorem follows_rebase (h : l.rebase start = .ok records) : l.Follows records := by
  obtain ⟨-, rfl⟩ := rebase_ok_iff.1 h
  exact follows_rebased start _ l nodup_ordered fun _ => mem_ordered.1

/-- A batch that `rebase` leaves as it is. -/
def Settled (start rid : Int) (state : BatchState) : Prop :=
  rebased start rid state = none ∧ (start ≤ rid → state ≠ .outerRecorded)

theorem settled_rebased {state : BatchState} (h : start ≤ rid → state ≠ .outerRecorded) :
    Settled start rid ((rebased start rid state).getD state) := by
  by_cases hle : start ≤ rid
  · cases state <;> simp [Settled, rebased, hle] at h ⊢
  · cases state <;> simp [Settled, rebased, hle]

/-- Each record settles the batch it is about, and no later one is about it. -/
theorem settled_replayAll : ∀ (es : List (Int × Batch G D)) (l : Ledger G D),
    (es.map Prod.fst).Nodup →
    (∀ e ∈ es, l.batches.find e.1 = some e.2 ∧ (start ≤ e.1 → e.2.state ≠ .outerRecorded)) →
    (∀ rid b, l.batches.find rid = some b → rid ∈ es.map Prod.fst ∨ Settled start rid b.state) →
    l.replayAll (es.filterMap fun e => (rebased start e.1 e.2.state).map (.state e.1)) = some l' →
    ∀ rid b, l'.batches.find rid = some b → Settled start rid b.state
  | [], l, _, _, hrest, hreplay, rid, b, hb =>
    (hrest rid b (Option.some.inj hreplay ▸ hb)).resolve_left not_mem_nil
  | e :: es, l, hnd, hfind, hrest, hreplay, rid, b, hb => by
    obtain ⟨hnew, hnd⟩ := nodup_cons.1 hnd
    obtain ⟨hb₀, hfree⟩ := hfind e mem_cons_self
    have hafter := settled_rebased hfree
    cases hkind : rebased start e.1 e.2.state with
    | none =>
      rw [filterMap_cons_none (by rw [hkind]; rfl)] at hreplay
      rw [hkind] at hafter
      refine settled_replayAll es l hnd (fun e' he' => hfind e' (mem_cons_of_mem _ he'))
        (fun rid b hb => ?_) hreplay rid b hb
      rcases hrest rid b hb with hmem | hsettled
      · rcases mem_cons.1 hmem with rfl | hmem
        · cases hb₀.symm.trans hb
          exact .inr hafter
        · exact .inl hmem
      · exact .inr hsettled
    | some kind =>
      rw [filterMap_cons_some (by rw [hkind]; rfl)] at hreplay
      rw [hkind] at hafter
      obtain ⟨l₁, hone, hreplay⟩ := Option.bind_eq_some_iff.1 hreplay
      obtain rfl := Option.some.inj ((replay_state hb₀).symm.trans hone)
      refine settled_replayAll es _ hnd (fun e' he' => ?_) (fun rid b hb => ?_) hreplay rid b hb
      · obtain ⟨hb', hfree'⟩ := hfind e' (mem_cons_of_mem _ he')
        have hne : e'.1 ≠ e.1 := fun h => hnew (h ▸ mem_map_of_mem he')
        exact ⟨(find_insert_ne _ _ hne).trans hb', hfree'⟩
      · obtain ⟨rfl, rfl⟩ | ⟨hne, hb⟩ := find_insert_cases hb
        · exact .inr hafter
        · exact (hrest rid b hb).imp_left fun hmem => (mem_cons.1 hmem).resolve_left hne

/-- A `rebase` that was made is made again by nothing. -/
theorem rebase_again (h : l.rebase start = .ok records) (hreplay : l.replayAll records = some l') :
    l'.rebase start = .ok [] := by
  obtain ⟨hfree, rfl⟩ := rebase_ok_iff.1 h
  have hsettled := settled_replayAll _ l nodup_ordered
    (fun e he => ⟨mem_ordered.1 he, hfree e.1 e.2 (mem_ordered.1 he)⟩)
    (fun rid b hb => .inl (mem_map_of_mem (mem_ordered (e := (rid, b)).2 hb))) hreplay
  refine rebase_ok_iff.2 ⟨fun rid b hb => (hsettled rid b hb).2, ?_⟩
  refine (filterMap_eq_nil_iff.2 fun e he => ?_).symm
  rw [(hsettled e.1 e.2 (mem_ordered.1 he)).1]
  rfl

theorem follows_of_records {c : Call G D} (h : l.records c = .ok records)
    (hfresh : ∀ rid, c = .optimizerApplied rid → ∀ b,
      l.batches.find rid = some b → b.state = .prepared →
      ∀ g ∈ b.groupIds, l.consumedGroups.find g = none) : l.Follows records := by
  cases c with
  | prepare batch => exact follows_prepare h
  | optimizerApplied rid => exact follows_advance h fun _ => hfresh rid rfl
  | outerRecorded rid => exact follows_advance h nofun
  | discard rid =>
    cases h
    exact follows_discard
  | rebase start => exact follows_rebase h
  | carriedOver rid ids token =>
    cases h
    exact follows_single trivial
  | filterCarried ids detail =>
    obtain ⟨-, ⟨⟩⟩ := of_then_error h
    exact follows_single trivial

variable {codec : Lines.Codec (Record G D)} {s s' : State G D}

/-- The file is whole records and a torn one behind them, if no process runs;
`l` is what they give, and the ledger of a process that runs. -/
structure Holds (codec : Lines.Codec (Record G D)) (s : State G D) (l : Ledger G D) : Prop where
  written : ∃ records tail, '\n' ∉ tail ∧ s.file = codec.text records ++ tail
    ∧ Ledger.replayAll {} records = some l ∧ (s.live ≠ none → tail = [])
  marked : l.Marked
  live : ∀ l', s.live = some l' → l' = l ∧ l.Follows s.todo

omit [LinearOrder G] in
theorem parseLines_text (records : List (Record G D)) {tail : List Char}
    (htail : '\n' ∉ tail) : parseLines codec (codec.text records ++ tail)
      = some (records, (codec.text records).length) := by
  unfold parseLines Lines.Codec.text
  rw [Lines.split_join htail _ (codec.plain_lines records), codec.loadAll_dumps]
  rfl

theorem replayAll_snoc (h : replayAll {} records = some l) (hr : l.replay r = some l') :
    replayAll {} (records ++ [r]) = some l' := by
  unfold replayAll at h ⊢
  rw [foldlM_append, h]
  show (l.replay r).bind some = _
  rw [hr]
  rfl

section

variable (h : Holds codec s l)
include h

theorem Holds.rebuilt_eq : s.rebuilt codec = some l := by
  obtain ⟨records, tail, htail, hfile, hreplay, -⟩ := h.written
  unfold State.rebuilt
  rw [hfile, parseLines_text records htail]
  exact hreplay

theorem Holds.batch_eq (rid : Int) : s.batch codec rid = l.batches.find rid := by
  unfold State.batch
  rw [h.rebuilt_eq]
  rfl

/-- One step: the ledger stays, or one record that fits is replayed. -/
def Ledger.Moves (l l' : Ledger G D) : Prop := l' = l ∨ ∃ r, l.Fits r ∧ l.replay r = some l'

theorem holds_append (hlive : s.live = some l) {rest : List (Record G D)}
    (htodo : s.todo = r :: rest) (hr : l.replay r = some l') :
    Holds codec ⟨s.file ++ codec.text [r], some l', rest⟩ l' := by
  obtain ⟨records, tail, -, hfile, hreplay, htorn⟩ := h.written
  obtain rfl := htorn (by rw [hlive]; nofun)
  have hfollows := (h.live l hlive).2
  rw [htodo] at hfollows
  refine ⟨⟨records ++ [r], [], not_mem_nil, ?_, replayAll_snoc hreplay hr, fun _ => rfl⟩,
    marked_of_replay h.marked hfollows.1 hr, fun _ hl => ?_⟩
  · rw [hfile, codec.text_append]
    simp
  · obtain rfl := Option.some.inj hl
    exact ⟨rfl, hfollows.2 _ hr⟩

/-- What the file gives after a crash: the record under way counts if it is
whole. -/
def Ledger.afterCrash (codec : Lines.Codec (Record G D)) (l : Ledger G D) (written : Nat) :
    List (Record G D) → Option (Ledger G D)
  | [] => some l
  | r :: _ => if (codec.text [r]).length ≤ written then l.replay r else some l

theorem holds_crash (hlive : s.live = some l) (written : Nat) : ∃ l', l.Moves l'
      ∧ Holds codec ⟨s.file ++ (codec.text (s.todo.take 1)).take written, none, []⟩ l'
      ∧ l.afterCrash codec written s.todo = some l' := by
  obtain ⟨records, tail, -, hfile, hreplay, htorn⟩ := h.written
  obtain rfl := htorn (by rw [hlive]; nofun)
  rw [append_nil] at hfile
  cases htodo : s.todo with
  | nil =>
    refine ⟨l, .inl rfl,
      ⟨⟨records, [], not_mem_nil, ?_, hreplay, fun _ => rfl⟩, h.marked, nofun⟩, rfl⟩
    rw [hfile]
    simp [Lines.Codec.text, Lines.join]
  | cons r rest =>
    have hfollows := (h.live l hlive).2
    rw [htodo] at hfollows
    show ∃ l', _ ∧ Holds codec ⟨_ ++ (codec.text [r]).take written, _, _⟩ l' ∧ _
    by_cases hlen : (codec.text [r]).length ≤ written
    · obtain ⟨l', hr⟩ := replay_of_fits hfollows.1
      refine ⟨l', .inr ⟨r, hfollows.1, hr⟩, ⟨⟨records ++ [r], [],
        not_mem_nil, ?_, replayAll_snoc hreplay hr, fun _ => rfl⟩,
        marked_of_replay h.marked hfollows.1 hr, nofun⟩, (if_pos hlen).trans hr⟩
      rw [take_of_length_le hlen, hfile, codec.text_append]
      simp
    · have htake : (codec.text [r]).take written = (codec.dumps r).take written := by
        rw [codec.text_singleton] at hlen ⊢
        rw [length_append, length_singleton] at hlen
        exact take_append_of_le_length (by omega)
      refine ⟨l, .inl rfl, ⟨⟨records, (codec.dumps r).take written,
        fun hmem => codec.plain r (mem_of_mem_take hmem), ?_, hreplay,
        fun hne => absurd rfl hne⟩, h.marked, nofun⟩, if_neg hlen⟩
      rw [htake, hfile]

theorem rebuilt_crash {written : Nat} (hexec : s.exec codec (.crash written) = some s') :
    s'.rebuilt codec = l.afterCrash codec written s.todo := by
  unfold State.exec at hexec
  dsimp only at hexec
  split at hexec
  · next l₁ hlive =>
    obtain rfl := (h.live l₁ hlive).1
    obtain rfl := Option.some.inj hexec
    obtain ⟨l', -, hl', hafter⟩ := holds_crash h hlive written
    rw [hl'.rebuilt_eq, hafter]
  · cases hexec

theorem holds_step {op : Op G D} (hfresh : s.untrained op = true)
    (hexec : s.exec codec op = some s') : ∃ l', l.Moves l' ∧ Holds codec s' l' := by
  unfold State.exec at hexec
  cases op with dsimp only at hexec
  | call c =>
    split at hexec
    · next l₁ hlive htodo =>
      obtain rfl := (h.live l₁ hlive).1
      split at hexec
      · next records hrecs =>
        obtain rfl := Option.some.inj hexec
        refine ⟨l₁, .inl rfl, h.written, h.marked, fun l₂ hl₂ =>
          ⟨(h.live l₂ hl₂).1, follows_of_records hrecs ?_⟩⟩
        rintro rid rfl b hb
        unfold State.untrained at hfresh
        simp only [hlive, Option.bind_some, hb, Option.map_some] at hfresh
        exact of_decide_eq_true hfresh
      · obtain rfl := Option.some.inj hexec
        exact ⟨l₁, .inl rfl, h⟩
    · cases hexec
  | append =>
    split at hexec
    · next l₁ r rest hlive htodo =>
      obtain ⟨rfl, hfollows⟩ := h.live l₁ hlive
      obtain ⟨l', hr, rfl⟩ := Option.map_eq_some_iff.1 hexec
      rw [htodo] at hfollows
      exact ⟨l', .inr ⟨r, hfollows.1, hr⟩, holds_append h hlive htodo hr⟩
    · cases hexec
  | crash written =>
    split at hexec
    · next l₁ hlive =>
      obtain rfl := (h.live l₁ hlive).1
      obtain rfl := Option.some.inj hexec
      obtain ⟨l', hmoves, hl', -⟩ := holds_crash h hlive written
      exact ⟨l', hmoves, hl'⟩
    · cases hexec
  | reopen =>
    split at hexec
    · next hlive hparse =>
      rw [h.rebuilt_eq] at hexec
      obtain rfl := Option.some.inj hexec
      obtain ⟨records, tail, htail, hfile, hreplay, -⟩ := h.written
      rw [hfile, parseLines_text records htail] at hparse
      obtain ⟨-, rfl⟩ := Prod.mk.inj (Option.some.inj hparse)
      refine ⟨l, .inl rfl, ⟨records, [], not_mem_nil, ?_, hreplay,
        fun _ => rfl⟩, h.marked, fun l' hl' => ?_⟩
      · rw [hfile, take_left, append_nil]
      · obtain rfl := Option.some.inj hl'
        exact ⟨rfl, trivial⟩
    · cases hexec

end

theorem holds_start : Holds codec ({} : State G D) {} where
  written := ⟨[], [], not_mem_nil, rfl, rfl, fun _ => rfl⟩
  marked g rid := by simp [Ledger.Trains, SortedMap.find_empty]
  live l' hl' := by
    obtain rfl := Option.some.inj hl'
    exact ⟨rfl, trivial⟩

theorem holds_of_reachable (h : (untrainedRuns codec).Reachable s) : ∃ l, Holds codec s l :=
  System.guarded_invariant (P := fun s => ∃ l, Holds codec s l)
    ⟨{}, holds_start⟩ (fun _ _ _ ⟨_, hl⟩ hfresh hexec =>
      (holds_step hl hfresh hexec).imp fun _ h => h.2) h

/-- A step makes one turn of a batch at most. -/
theorem turn_of_step (h : (untrainedRuns codec).Reachable s)
    (hstep : (untrainedRuns codec).step s s') (rid : Int) :
    Turn (s.batch codec rid) (s'.batch codec rid) := by
  obtain ⟨l, hl⟩ := holds_of_reachable h
  obtain ⟨op, hfresh, hexec⟩ := hstep
  obtain ⟨l', hmoves, hl'⟩ := holds_step hl hfresh hexec
  rw [hl.batch_eq, hl'.batch_eq]
  obtain rfl | ⟨r, hfits, hr⟩ := hmoves
  · exact .same _
  · exact turn_of_replay hfits hr rid

/-- The batch `b` of `rid` is there, in a state that `P` holds of. -/
def IsAt (codec : Lines.Codec (Record G D)) (s : State G D) (rid : Int)
    (b : Batch G D) (P : BatchState → Prop) : Prop :=
  ∃ b', s.batch codec rid = some b' ∧ b'.attempt = b.attempt ∧ b'.groupIds = b.groupIds ∧ P b'.state

theorem isAt_of_steps {P Q : BatchState → Prop} (htrained : ∀ x, P x → x.trained = true)
    (hmove : ∀ x y, P x → x.moves y = true → P y ∨ Q y) (h : (untrainedRuns codec).Reachable s)
    (hb : s.batch codec rid = some b) (hP : P b.state) (hs : (untrainedRuns codec).Steps s s') :
    IsAt codec s' rid b P ∨ ∃ s₁, (untrainedRuns codec).Steps s s₁
      ∧ (untrainedRuns codec).Steps s₁ s' ∧ IsAt codec s₁ rid b Q := by
  induction hs with
  | refl => exact .inl ⟨b, hb, rfl, rfl, hP⟩
  | @tail s₂ s₃ hbefore hlast ih =>
    rcases ih with ⟨b₁, hb₁, hattempt, hids, hP₁⟩ | ⟨s₁, h1, h2, hQ⟩
    · have hturn := turn_of_step (h.steps hbefore) hlast rid
      rw [hb₁] at hturn
      generalize hb₃ : s₃.batch codec rid = o at hturn
      cases hturn with
      | @moved _ b₂ ha hi _ hstate =>
        have hat {R : BatchState → Prop} (hR : R b₂.state) : IsAt codec s₃ rid b R :=
          ⟨b₂, hb₃, ha.trans hattempt, hi.trans hids, hR⟩
        rcases hstate with hsame | hmoves
        · exact .inl (hat (hsame ▸ hP₁))
        · rcases hmove _ _ hP₁ hmoves with hP₂ | hQ₂
          · exact .inl (hat hP₂)
          · exact .inr ⟨s₃, hbefore.tail hlast, .refl, hat hQ₂⟩
      | again hidle =>
        rw [htrained _ hP₁] at hidle
        cases hidle
    · exact .inr ⟨s₁, h1, h2.tail hlast, hQ⟩

theorem prepare_refuses (hmarked : l.Marked) (hb : l.batches.find rid = some b)
    (htrained : b.state.trained = true) (hg : g ∈ b.groupIds) (hbatch : g ∈ batch.groupIds) :
    l.prepare batch ≠ .ok records := by
  intro h
  unfold prepare at h
  have hmem : g ∈ batch.groupIds.filter l.consumedGroups.contains :=
    mem_filter.2 ⟨hbatch, (contains_iff _ _).2 ⟨rid, (hmarked g rid).2 ⟨b, hb, htrained, hg⟩⟩⟩
  rw [if_pos (ne_nil_of_mem hmem)] at h
  cases h

/-- In the runs in which a batch is applied only while none of its groups is
in another that was: opening the file gives the ledger of the process; a
group is in one trained batch at most, and is accepted again only after that
batch was superseded; a recorded batch stays recorded; every step makes one
turn of a batch at most; a crash leaves the old ledger, or with one record
more if that is whole; and a transition or a rebase that is made again
appends nothing. -/
theorem no_group_trained_twice (h : (untrainedRuns codec).Reachable s) :
    ∃ l, s.rebuilt codec = some l ∧ (∀ l', s.live = some l' → l' = l)
      ∧ (∀ rid rid' b b' g, s.batch codec rid = some b →
        s.batch codec rid' = some b' → b.state.trained = true →
        b'.state.trained = true → g ∈ b.groupIds → g ∈ b'.groupIds → rid = rid')
      ∧ (∀ rid b, s.batch codec rid = some b → b.state.trained = true →
        ∀ g ∈ b.groupIds, ∀ s', (untrainedRuns codec).Steps s s' →
        ∀ l', s'.rebuilt codec = some l' → ∀ batch : Handle G D,
        g ∈ batch.groupIds → ∀ records, l'.prepare batch = .ok records →
        ∃ s₁, (untrainedRuns codec).Steps s s₁ ∧ (untrainedRuns codec).Steps s₁ s'
          ∧ IsAt codec s₁ rid b (· = .superseded))
      ∧ (∀ rid b, s.batch codec rid = some b → b.state = .outerRecorded →
        ∀ s', (untrainedRuns codec).Steps s s' → IsAt codec s' rid b (· = .outerRecorded))
      ∧ (∀ s', (untrainedRuns codec).step s s' → ∀ rid,
        Turn (s.batch codec rid) (s'.batch codec rid))
      ∧ (∀ written s', s.exec codec (.crash written) = some s' →
        s'.rebuilt codec = l.afterCrash codec written s.todo)
      ∧ (∀ start records l', l.records (.rebase start) = .ok records →
        l.replayAll records = some l' → l'.records (.rebase start) = .ok [])
      ∧ ∀ rid b, s.batch codec rid = some b → (b.state = .optimizerApplied →
          l.records (.optimizerApplied rid) = .ok [])
        ∧ (b.state = .outerRecorded → l.records (.outerRecorded rid) = .ok [])
        ∧ (b.state = .discarded → l.records (.discard rid) = .ok []) := by
  obtain ⟨l, hl⟩ := holds_of_reachable h
  refine ⟨l, hl.rebuilt_eq, fun l' hl' => (hl.live l' hl').1, ?_, ?_, ?_,
    fun s' hstep rid => turn_of_step h hstep rid, ?_, fun _ _ _ => rebase_again, ?_⟩
  · intro rid rid' b b' g hb hb' ht ht' hg hg'
    rw [hl.batch_eq] at hb hb'
    have hmark := (hl.marked g rid).2 ⟨b, hb, ht, hg⟩
    have hmark' := (hl.marked g rid').2 ⟨b', hb', ht', hg'⟩
    exact Option.some.inj (hmark.symm.trans hmark')
  · intro rid b hb htrained g hg s' hs l' hl' batch hbatch records haccepted
    have hends : ∀ x y : BatchState, x.trained = true → x.moves y = true →
        y.trained = true ∨ y = .superseded := by
      intro x y
      cases x <;> cases y <;> decide
    rcases isAt_of_steps (fun _ => id) hends h hb htrained hs with
      ⟨b', hb', -, hids, ht⟩ | hgone
    · obtain ⟨l₁, hl₁⟩ := holds_of_reachable (h.steps hs)
      obtain rfl := Option.some.inj (hl₁.rebuilt_eq.symm.trans hl')
      rw [hl₁.batch_eq] at hb'
      exact absurd haccepted (prepare_refuses hl₁.marked hb' ht (hids ▸ hg) hbatch)
    · exact hgone
  · intro rid b hb hrecorded s' hs
    have hends : ∀ x y : BatchState, x = .outerRecorded → x.moves y = true →
        y = .outerRecorded ∨ False := by
      rintro _ y rfl hmoves
      cases hmoves
    rcases isAt_of_steps (by rintro _ rfl; rfl) hends h hb hrecorded hs with
      hat | ⟨s₁, -, -, b', -, -, -, hfalse⟩
    · exact hat
    · exact hfalse.elim
  · exact fun written s' => rebuilt_crash hl
  · intro rid b hb
    rw [hl.batch_eq] at hb
    unfold Ledger.records
    simp only [Ledger.advance, Ledger.discard, hb]
    refine ⟨fun hstate => by rw [if_pos hstate],
      fun hstate => by rw [if_pos hstate], fun hstate => ?_⟩
    rw [hstate]
    rfl

deriving instance Encodable for BatchState
deriving instance Encodable for Record

/-- A line of as many marks as the number of the record. -/
def tallyCodec : Lines.Codec (Record Nat Unit) where
  dumps r := List.replicate (Encodable.encode r) 'x'
  loads line := Encodable.decode line.length
  loads_dumps r := by rw [length_replicate, Encodable.encodek]
  plain r h := by cases eq_of_mem_replicate h

def seven (rid : Int) : Op Nat Unit := .call (.prepare ⟨rid, [7], (), none, 0, ()⟩)

def oneTrained : List (Op Nat Unit) :=
  [seven 0, .append, .append, .call (.optimizerApplied 0), .append]

theorem no_group_trained_twice_sample : ∃ s, (untrainedRuns tallyCodec).Reachable s
      ∧ ∃ l, s.rebuilt tallyCodec = some l ∧ s.live = some l
        ∧ l.consumedGroups.find 7 = some 0 := by
  obtain ⟨s, hreach, hlive⟩ : ∃ s, (untrainedRuns tallyCodec).Reachable s
      ∧ (s.live.map fun l => l.consumedGroups.find 7) = some (some 0) :=
    System.exists_reachable oneTrained (by decide +kernel)
  obtain ⟨l, hl, hfind⟩ := Option.map_eq_some_iff.1 hlive
  obtain ⟨l', hrebuilt, hsame, -⟩ := no_group_trained_twice hreach
  obtain rfl := hsame l hl
  exact ⟨s, hreach, l, hrebuilt, hl, hfind⟩

def bothTrained : List (Op Nat Unit) := [seven 0, .append, .append, seven 1, .append, .append,
    .call (.optimizerApplied 0), .append, .call (.optimizerApplied 1), .append]

/-- The group is in two applied batches; and after a restart at the second
batch it is prepared once more, while the first is part of the learner. -/
theorem group_applied_twice : (∃ s, (runs tallyCodec).Reachable s ∧ ∃ l, s.live = some l
      ∧ (l.batches.find 0).map (fun b => (b.state, b.groupIds)) = some (.optimizerApplied, [7])
      ∧ (l.batches.find 1).map (fun b => (b.state, b.groupIds)) = some (.optimizerApplied, [7]))
    ∧ ∃ s, (runs tallyCodec).Reachable s ∧ ∃ l, s.live = some l
      ∧ (l.batches.find 0).map (fun b => (b.state, b.groupIds)) = some (.outerRecorded, [7])
      ∧ (l.batches.find 1).map (fun b => (b.state, b.groupIds)) = some (.prepared, [7]) :=
  ⟨System.exists_reachable bothTrained (by decide +kernel), System.exists_reachable (bothTrained
    ++ [.call (.rebase 1), .append, .append, seven 1, .append, .append]) (by decide +kernel)⟩

end Yeto.Batches
