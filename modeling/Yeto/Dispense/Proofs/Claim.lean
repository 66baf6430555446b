/-
What a claim collects and grants. `giveFresh` moves the counters of the picked
streams and nothing else, and gives out the positions they move over
(`givenOf_giveFresh`). Only while the streams still fit (`Fits`) are the cells
of its spans those positions (`cells_giveFresh`).
-/
import Yeto.Dispense.Proofs.Books

namespace Yeto.Dispense

open Lib Dispenser List

variable {streams : List StreamState} {l : Live} {n s : Nat} {passes : List Nat}

theorem quiet_startPasses : ∀ started : Nat, Quiet (startPasses s passes started).2 := by
  induction passes with
  | nil => intro started e he; cases he
  | cons pass rest ih =>
    intro started
    unfold startPasses
    split
    · intro e he
      rcases mem_cons.1 he with rfl | he
      · exact ⟨rfl, rfl, rfl⟩
      · exact ih _ e he
    · exact ih _

theorem limit_le (d : Dispenser) (s : Nat) : d.limit s ≤ 2 ^ 40 := by
  unfold limit
  split
  · exact Nat.min_le_right _ _
  · exact le_rfl

theorem limit_congr {d d' : Dispenser} (hc : d'.cfg = d.cfg)
    (hd : d'.data = d.data) (s : Nat) : d'.limit s = d.limit s := by
  unfold limit streamRows decls
  rw [hc, hd]

/-- Nothing but the streams changes, and the log says nothing of
positions. -/
structure Gave (d d' : Dispenser) : Prop where
  cfg : d'.cfg = d.cfg
  data : d'.data = d.data
  blocks : d'.blocks = d.blocks
  nextBlock : d'.nextBlock = d.nextBlock
  live : d'.live = d.live
  members : d'.members = d.members
  totals : d'.totals = d.totals
  events : ∃ es, Quiet es ∧ d'.events = d.events ++ es
  length : d'.streams.length = d.streams.length

theorem Gave.refl (d : Dispenser) : Gave d d := ⟨rfl, rfl, rfl, rfl, rfl, rfl, rfl,
    ⟨[], forall_mem_nil _, (append_nil _).symm⟩, rfl⟩

theorem Gave.trans {a b c : Dispenser} (h : Gave a b) (h' : Gave b c) : Gave a c := by
  obtain ⟨es, hes, he⟩ := h.events
  obtain ⟨es', hes', he'⟩ := h'.events
  exact ⟨h'.cfg.trans h.cfg, h'.data.trans h.data, h'.blocks.trans h.blocks,
    h'.nextBlock.trans h.nextBlock, h'.live.trans h.live,
    h'.members.trans h.members, h'.totals.trans h.totals,
    ⟨es ++ es', hes.append hes', by rw [he', he, append_assoc]⟩, h'.length.trans h.length⟩

theorem gave_giveOne (d : Dispenser) (s n : Nat) : Gave d (d.giveOne s n).2 :=
  ⟨rfl, rfl, rfl, rfl, rfl, rfl, rfl, ⟨_, quiet_startPasses _, rfl⟩, length_modify _ _ _⟩

variable {d : Dispenser}

/-- A fresh span moves the counter of its stream, and no queue. -/
theorem stream_giveOne (n : Nat) (hs : s < d.streams.length) (i : Nat) :
    ((d.giveOne s n).2.stream i).next = (d.stream i).next + (if i = s then n else 0)
      ∧ ((d.giveOne s n).2.stream i).queue = (d.stream i).queue := by
  unfold giveOne stream
  rw [getD_modify _ _ _ _ hs]
  split
  · next he => subst he; exact ⟨rfl, rfl⟩
  · exact ⟨rfl, rfl⟩

theorem next_giveOne_ne {i : Nat} (n : Nat) (hs : s < d.streams.length) (hi : i ≠ s) :
    ((d.giveOne s n).2.stream i).next = (d.stream i).next := by
  rw [(stream_giveOne n hs i).1, if_neg hi, Nat.add_zero]

theorem gave_giveFresh (picks : List (Nat × Nat)) : ∀ d : Dispenser,
    Gave d (giveFresh picks d).2 := by
  induction picks with
  | nil => intro d; exact .refl d
  | cons e picks ih =>
    intro d
    obtain ⟨s, n⟩ := e
    exact (gave_giveOne d s n).trans (ih _)

/-- How many positions of a stream were picked. -/
def pickedOf (picks : List (Nat × Nat)) (s : Nat) : Nat :=
  (picks.map fun e => if s = e.1 then e.2 else 0).sum

/-- The fresh spans move the counters by what was picked. -/
theorem stream_giveFresh (picks : List (Nat × Nat)) : ∀ d : Dispenser,
    (∀ e ∈ picks, e.1 < d.streams.length) → ∀ i, ((giveFresh picks d).2.stream i).next
          = (d.stream i).next + pickedOf picks i
        ∧ ((giveFresh picks d).2.stream i).queue = (d.stream i).queue := by
  induction picks with
  | nil => intro d _ i; exact ⟨rfl, rfl⟩
  | cons e picks ih =>
    intro d hin i
    obtain ⟨hs, hrest⟩ := forall_mem_cons.1 hin
    obtain ⟨s, n⟩ := e
    obtain ⟨h1, h2⟩ := stream_giveOne n hs i
    obtain ⟨i1, i2⟩ := ih (d.giveOne s n).2 (fun e he => by
      rw [(gave_giveOne d s n).length]
      exact hrest e he) i
    unfold giveFresh
    refine ⟨?_, i2.trans h2⟩
    rw [i1, h1]
    unfold pickedOf
    rw [map_cons, sum_cons, Nat.add_assoc]

theorem startPasses_le {b : Nat} :
    ∀ started : Nat, (∀ p ∈ passes, p < b) → (startPasses s passes started).1 ≤ max started b := by
  induction passes with
  | nil => intro started _; exact Nat.le_max_left _ _
  | cons pass rest ih =>
    intro started hp
    obtain ⟨h0, hp⟩ := forall_mem_cons.1 hp
    unfold startPasses
    split
    · have := ih (pass + 1) hp
      dsimp only
      omega
    · exact ih started hp

theorem passes_giveOne (hs : s < d.streams.length) (hn : 0 < n) (i : Nat) :
    ((d.giveOne s n).2.stream i).passesStarted
      ≤ max (d.stream i).passesStarted ((d.giveOne s n).2.stream i).next := by
  unfold giveOne stream
  rw [getD_modify _ _ _ _ hs]
  split
  · next hi =>
    subst hi
    refine startPasses_le _ fun p hp => ?_
    obtain ⟨h1, h2⟩ := mem_range'_1.1 hp
    have hdiv := Nat.div_le_self ((d.streams.getD i .default).next + n - 1) (d.streamRows i)
    dsimp only
    omega
  · exact Nat.le_max_left _ _

/-- No pass is started that the counter did not reach. -/
theorem passes_giveFresh (picks : List (Nat × Nat)) : ∀ d : Dispenser,
    (∀ e ∈ picks, e.1 < d.streams.length ∧ 0 < e.2) → ∀ i,
      ((giveFresh picks d).2.stream i).passesStarted ≤ max (d.stream i).passesStarted
          ((giveFresh picks d).2.stream i).next := by
  induction picks with
  | nil => intro d _ i; exact Nat.le_max_left _ _
  | cons e picks ih =>
    intro d hin i
    obtain ⟨⟨hs, hn⟩, hrest⟩ := forall_mem_cons.1 hin
    obtain ⟨s, n⟩ := e
    have hrest' : ∀ e ∈ picks, e.1 < (d.giveOne s n).2.streams.length ∧ 0 < e.2 := by
      rw [(gave_giveOne d s n).length]
      exact hrest
    have h1 := passes_giveOne hs hn i
    have h2 := ih (d.giveOne s n).2 hrest' i
    have h3 := (stream_giveFresh picks (d.giveOne s n).2 (fun e he => (hrest' e he).1) i).1
    unfold giveFresh
    dsimp only at h1 h2 h3 ⊢
    omega

variable {picks : List (Nat × Nat)}

theorem pickedOf_not_mem (h : s ∉ picks.map Prod.fst) : pickedOf picks s = 0 := by
  refine sum_eq_zero fun v hv => ?_
  obtain ⟨x, hx, rfl⟩ := mem_map.1 hv
  rw [if_neg]
  intro heq
  exact h (heq ▸ mem_map_of_mem hx)

theorem pickedOf_mem (hd : (picks.map Prod.fst).Nodup) {e : Nat × Nat} (he : e ∈ picks) :
    pickedOf picks e.1 = e.2 := by
  induction picks with
  | nil => cases he
  | cons a picks ih =>
    obtain ⟨hnot, hd'⟩ := nodup_cons.1 hd
    unfold pickedOf
    rw [map_cons, sum_cons]
    rcases mem_cons.1 he with rfl | he
    · rw [if_pos rfl]
      exact (congrArg (e.2 + ·) (pickedOf_not_mem hnot)).trans (Nat.add_zero _)
    · have hne : e.1 ≠ a.1 := fun heq =>
        hnot (heq ▸ mem_map_of_mem he)
      rw [if_neg hne, Nat.zero_add]
      exact ih hd' he

/-- The positions the picks will give out. -/
def freshOf (d : Dispenser) (picks : List (Nat × Nat)) : Multiset Nat := (picks.map fun e =>
    Multiset.Ico (e.1 * 2 ^ 40 + (d.stream e.1).next)
      (e.1 * 2 ^ 40 + (d.stream e.1).next + e.2)).sum

theorem freshOf_giveOne (hs : s < d.streams.length) (hnot : s ∉ picks.map Prod.fst) :
    freshOf (d.giveOne s n).2 picks = freshOf d picks := by
  unfold freshOf
  congr 1
  refine map_congr_left fun e he => ?_
  rw [next_giveOne_ne n hs fun heq => hnot (heq ▸ mem_map_of_mem he)]

/-- What is given out grows by the fresh positions. -/
theorem givenOf_giveFresh (picks : List (Nat × Nat)) : ∀ d : Dispenser,
    (picks.map Prod.fst).Nodup → (∀ e ∈ picks, e.1 < d.streams.length) →
    givenOf (giveFresh picks d).2.streams = freshOf d picks + givenOf d.streams := by
  induction picks with
  | nil => intro d _ _; exact (zero_add _).symm
  | cons e picks ih =>
    intro d hd hin
    obtain ⟨s, n⟩ := e
    obtain ⟨(hnot : s ∉ picks.map Prod.fst), hd'⟩ := nodup_cons.1 hd
    obtain ⟨(hs : s < d.streams.length), hrest⟩ := forall_mem_cons.1 hin
    have hlen := (gave_giveOne d s n).length
    have hone : givenOf (d.giveOne s n).2.streams = Multiset.Ico (s * 2 ^ 40 + (d.stream s).next)
            (s * 2 ^ 40 + (d.stream s).next + n) + givenOf d.streams := by
      unfold givenOf
      rw [hlen]
      refine sum_range_add hs ?_ ?_
      · intro i hi
        exact congrArg (fun k => Multiset.Ico _ (_ + k)) (next_giveOne_ne n hs hi)
      · have hnext := (stream_giveOne n hs s).1
        unfold stream at hnext ⊢
        rw [hnext, if_pos rfl, ← Nat.add_assoc, add_comm (Multiset.Ico _ _),
          Multiset.Ico_add_Ico_eq_Ico (by omega) (by omega)]
    unfold giveFresh
    rw [ih _ hd' (fun e he => by rw [hlen]; exact hrest e he), hone, freshOf_giveOne hs hnot]
    unfold freshOf
    rw [map_cons, sum_cons, ← add_assoc]
    congr 1
    exact add_comm _ _

theorem spans_giveFresh (picks : List (Nat × Nat)) : ∀ d : Dispenser,
    (picks.map Prod.fst).Nodup → (∀ e ∈ picks, e.1 < d.streams.length) →
    (giveFresh picks d).1 = picks.map fun e =>
      ⟨positionOf e.1 (d.stream e.1).next, positionOf e.1 ((d.stream e.1).next + e.2), 0⟩ := by
  induction picks with
  | nil => intro d _ _; rfl
  | cons e picks ih =>
    intro d hd hin
    obtain ⟨s, n⟩ := e
    obtain ⟨(hnot : s ∉ picks.map Prod.fst), hd'⟩ := nodup_cons.1 hd
    obtain ⟨(hs : s < d.streams.length), hrest⟩ := forall_mem_cons.1 hin
    have hlen := (gave_giveOne d s n).length
    refine congrArg₂ List.cons rfl ?_
    rw [ih _ hd' (fun e he => by rw [hlen]; exact hrest e he)]
    refine map_congr_left fun e he => ?_
    rw [next_giveOne_ne n hs fun heq => hnot (heq ▸ mem_map_of_mem he)]

theorem positionOf_fits (h : Fits streams) {k : Nat} (hs : s < streams.length)
    (hk : k ≤ (streams.getD s .default).next) : positionOf s k = s * 2 ^ 40 + k := by
  rcases h s hs with hlt | ⟨heven, hcap⟩
  · exact positionOf_eq (by omega)
  · rcases lt_or_ge k (2 ^ 40) with hlt | hge
    · exact positionOf_eq hlt
    · have hk' : k = 2 ^ 40 := by omega
      rw [hk']
      exact positionOf_capacity_even heven

theorem cellsOf_fresh :
    (∀ e ∈ picks, positionOf e.1 (d.stream e.1).next = e.1 * 2 ^ 40 + (d.stream e.1).next
        ∧ positionOf e.1 ((d.stream e.1).next + e.2) = e.1 * 2 ^ 40 + ((d.stream e.1).next + e.2)) →
    cellsOf (picks.map fun e =>
      ⟨positionOf e.1 (d.stream e.1).next, positionOf e.1 ((d.stream e.1).next + e.2), 0⟩)
      = (freshOf d picks).map (·, 0) := by
  induction picks with
  | nil => intro _; rfl
  | cons e picks ih =>
    intro h
    obtain ⟨⟨h1, h2⟩, hrest⟩ := forall_mem_cons.1 h
    unfold freshOf at ih ⊢
    rw [map_cons, cellsOf_cons, map_cons, sum_cons,
      Multiset.map_add, ih hrest, h1, h2, ← Nat.add_assoc]
    rfl

/-- The fresh spans are the fresh positions, none put back yet. -/
theorem cells_giveFresh (hd : (picks.map Prod.fst).Nodup)
    (hin : ∀ e ∈ picks, e.1 < d.streams.length) (hfit : Fits (giveFresh picks d).2.streams) :
    cellsOf (giveFresh picks d).1 = (freshOf d picks).map (·, 0)
      ∧ ∀ sp ∈ (giveFresh picks d).1, (∃ e ∈ picks, 0 < e.2 →
          InStream e.1 ((giveFresh picks d).2.stream e.1).next sp) := by
  have hpos : ∀ e ∈ picks, positionOf e.1 (d.stream e.1).next = e.1 * 2 ^ 40 + (d.stream e.1).next
      ∧ positionOf e.1 ((d.stream e.1).next + e.2) = e.1 * 2 ^ 40 + ((d.stream e.1).next + e.2)
      ∧ ((giveFresh picks d).2.stream e.1).next = (d.stream e.1).next + e.2 := by
    intro e he
    have hs : e.1 < (giveFresh picks d).2.streams.length := by
      rw [(gave_giveFresh picks d).length]
      exact hin e he
    have hnext : ((giveFresh picks d).2.stream e.1).next = (d.stream e.1).next + e.2 := by
      rw [(stream_giveFresh picks d hin e.1).1, pickedOf_mem hd he]
    have hle : ∀ k, k ≤ (d.stream e.1).next + e.2 →
        positionOf e.1 k = e.1 * 2 ^ 40 + k := fun k hk =>
      positionOf_fits hfit hs (hnext ▸ hk)
    exact ⟨hle _ (Nat.le_add_right _ _), hle _ le_rfl, hnext⟩
  rw [spans_giveFresh picks d hd hin]
  refine ⟨cellsOf_fresh fun e he => ⟨(hpos e he).1, (hpos e he).2.1⟩, ?_⟩
  intro sp hsp
  obtain ⟨e, he, rfl⟩ := mem_map.1 hsp
  obtain ⟨h1, h2, h3⟩ := hpos e he
  refine ⟨e, he, fun hn => ⟨?_, ?_, ?_⟩⟩ <;> dsimp only <;> omega

theorem modify_clear (h : (streams.getD s .default).queue = []) :
    streams.modify s (fun st => { st with queue := [] }) = streams := by
  refine modify_eq_self (d := .default) ?_
  rw [← h]

/-- Empty queues drain nothing. -/
theorem drainStreams_idle (accept : List Nat) : ∀ {need : Nat}
    (streams : List StreamState), need ≠ 0 → (∀ s ∈ accept, (streams.getD s .default).queue = []) →
    drainStreams accept need streams = ([], streams, need) := by
  induction accept with
  | nil => intro need streams _ _; rfl
  | cons s accept ih =>
    intro need streams hneed hall
    obtain ⟨hq, hall⟩ := forall_mem_cons.1 hall
    unfold drainStreams
    rw [hq]
    simp only [drainQueue, hneed, if_false]
    rw [modify_clear hq, ih streams hneed hall]
    rfl

theorem drainQueue_le {queue : List Span} : ∀ need : Nat, (drainQueue need queue).2.2 ≤ need := by
  induction queue with
  | nil => intro need; exact le_rfl
  | cons front queue ih =>
    intro need
    unfold drainQueue
    split
    · exact le_rfl
    · split
      · exact (ih _).trans (Nat.sub_le _ _)
      · exact Nat.zero_le _

theorem drainStreams_le {accept : List Nat} : ∀ (need : Nat) (streams : List StreamState),
    (drainStreams accept need streams).2.2 ≤ need := by
  induction accept with
  | nil => intro need streams; exact le_rfl
  | cons s accept ih =>
    intro need streams
    dsimp only [drainStreams]
    split
    · exact Nat.zero_le _
    · exact (ih _ _).trans (drainQueue_le _)

/-- The dispenser between the queued and the fresh spans. -/
def afterDrain (d : Dispenser) (accept : List Nat) (wanted : Nat) : Dispenser :=
  { d with streams := (drainStreams accept wanted d.streams).2.1 }

def picksOf (d : Dispenser) (accept : List Nat) (wanted : Nat) : List (Nat × Nat) :=
  (afterDrain d accept wanted).pickFresh accept (drainStreams accept wanted d.streams).2.2

/-- A collection is queued spans, then fresh ones. -/
theorem collect_eq (d : Dispenser) (accept : List Nat) (wanted : Nat) :
    d.collect accept wanted = ((drainStreams accept wanted d.streams).1
          ++ (giveFresh (picksOf d accept wanted) (afterDrain d accept wanted)).1,
        (giveFresh (picksOf d accept wanted) (afterDrain d accept wanted)).2) := rfl

variable {accept : List Nat}

theorem length_afterDrain {wanted : Nat} :
    (afterDrain d accept wanted).streams.length = d.streams.length :=
  (drainStreams_next accept wanted d.streams).1

theorem next_afterDrain (d : Dispenser) (accept : List Nat) (wanted s : Nat) :
    ((afterDrain d accept wanted).stream s).next = (d.stream s).next :=
  ((drainStreams_next accept wanted d.streams).2 s).1

theorem limit_afterDrain (d : Dispenser) (accept : List Nat) (wanted s : Nat) :
    (afterDrain d accept wanted).limit s = d.limit s := limit_congr rfl rfl s

theorem picked_picksOf (wanted : Nat) (hacc : ∀ s ∈ accept, s < d.streams.length) :
    Picked (afterDrain d accept wanted) accept
      (drainStreams accept wanted d.streams).2.2 (picksOf d accept wanted) := by
  refine picked_pickFresh _ fun s hs => ?_
  rw [length_afterDrain]
  exact hacc s hs

theorem picksOf_lt (wanted : Nat) (hacc : ∀ s ∈ accept, s < d.streams.length) :
    ∀ e ∈ picksOf d accept wanted, e.1 < (afterDrain d accept wanted).streams.length := by
  intro e he
  rw [length_afterDrain]
  exact hacc e.1 ((picked_picksOf wanted hacc).each e he).1

theorem gave_collect (d : Dispenser) (accept : List Nat) (wanted : Nat) :
    Gave d (d.collect accept wanted).2 := by
  have hdrain : Gave d (afterDrain d accept wanted) := ⟨rfl, rfl, rfl, rfl, rfl, rfl, rfl,
      ⟨[], forall_mem_nil _, (append_nil _).symm⟩, length_afterDrain⟩
  exact hdrain.trans (gave_giveFresh _ _)

/-- A collection stays within the limits. -/
theorem next_collect (wanted : Nat) (hacc : ∀ s ∈ accept, s < d.streams.length) (s : Nat) :
    ((d.collect accept wanted).2.stream s).next
        = (d.stream s).next + pickedOf (picksOf d accept wanted) s
      ∧ ((d.stream s).next ≤ d.limit s → ((d.collect accept wanted).2.stream s).next ≤ d.limit s)
      ∧ (s ∉ accept → ((d.collect accept wanted).2.stream s).next = (d.stream s).next)
      ∧ ((d.collect accept wanted).2.stream s).next ≤ max (d.stream s).next (2 ^ 40) := by
  have hp := picked_picksOf wanted hacc
  have hst := (stream_giveFresh (picksOf d accept wanted)
    (afterDrain d accept wanted) (picksOf_lt wanted hacc) s).1
  rw [next_afterDrain] at hst
  rw [collect_eq]
  dsimp only
  by_cases hs : s ∈ (picksOf d accept wanted).map Prod.fst
  · obtain ⟨e, he, rfl⟩ := mem_map.1 hs
    obtain ⟨h1, h2, h3⟩ := hp.each e he
    rw [next_afterDrain, limit_afterDrain] at h3
    have hpick := pickedOf_mem hp.distinct he
    have hcap := limit_le d e.1
    exact ⟨hst, fun _ => by omega, fun hn => absurd h1 hn, by omega⟩
  · have hpick := pickedOf_not_mem hs
    exact ⟨hst, fun _ => by omega, fun _ => by omega, by omega⟩

theorem pickedOf_le_wanted (wanted : Nat) (hacc : ∀ s ∈ accept, s < d.streams.length) (s : Nat) :
    pickedOf (picksOf d accept wanted) s ≤ wanted := by
  have hp := picked_picksOf wanted hacc
  have hneed : (drainStreams accept wanted d.streams).2.2 ≤ wanted :=
    drainStreams_le wanted d.streams
  have htotal := hp.total
  have hle : pickedOf (picksOf d accept wanted) s
      ≤ ((picksOf d accept wanted).map Prod.snd).sum := by
    refine sum_le_sum fun e _ => ?_
    split
    · exact le_rfl
    · exact Nat.zero_le _
  rw [htotal] at hle
  exact hle.trans ((min_le_left _ _).trans hneed)

/-- The books stay in order, step by step of a claim. -/
theorem Books.collect (h : Books d) (wanted : Nat) (hacc : ∀ s ∈ accept, s < d.streams.length) :
    Books (d.collect accept wanted).2 := by
  have hg := gave_collect d accept wanted
  have hp := picked_picksOf wanted hacc
  have hin : ∀ e ∈ picksOf d accept wanted,
      e.1 < (afterDrain d accept wanted).streams.length ∧ 0 < e.2 :=
    fun e he => ⟨picksOf_lt wanted hacc e he, (hp.each e he).2.1⟩
  have hb := h.with_streams d.events d.totals hg.length (fun s hs => by
    have hle := (next_collect wanted hacc s).2.2.2
    have hcount := h.counters s (by rw [← hg.length]; exact hs)
    have hpass : ((d.collect accept wanted).2.stream s).passesStarted
        ≤ max (d.stream s).passesStarted ((d.collect accept wanted).2.stream s).next := by
      have := passes_giveFresh _ _ hin s
      rwa [show ((afterDrain d accept wanted).stream s).passesStarted = _ from
        ((drainStreams_next accept wanted d.streams).2 s).2] at this
    show ((d.collect accept wanted).2.stream s).next ≤ 2 ^ 40
      ∧ ((d.collect accept wanted).2.stream s).passesStarted ≤ 2 ^ 40
    omega)
  exact hb.of_eq (by rw [hg.members]; exact h.members) hg.blocks hg.nextBlock hg.live hg.data rfl

variable {holder : Holder}

theorem Books.find_nextBlock (h : Books d) : d.blocks.find d.nextBlock = none := by
  cases hf : d.blocks.find d.nextBlock with
  | none => rfl
  | some b => exact absurd (h.ids _ b hf) (lt_irrefl _)

theorem Books.grant (h : Books d) {spans : List Span} (hl : d.live.find holder = some l) :
    Books (d.grant holder spans).2 := by
  have hlive : ∀ h', (d.grant holder spans).2.live.find h' = if h' = holder
        then some { l with
          waiting := false, blocks := l.blocks.insert d.nextBlock () }
        else d.live.find h' := by
    intro h'
    show (d.live.update holder _).find h' = _
    rw [SortedMap.find_update, hl]
    rfl
  have hblocks : ∀ id, (d.grant holder spans).2.blocks.find id
      = if id = d.nextBlock then some ⟨holder, openSpans spans⟩
        else d.blocks.find id := fun id => d.blocks.find_insert d.nextBlock id _
  refine ⟨h.members, ?_, ?_, ?_, Nat.le_succ_of_le h.first, ?_, h.data, ?_, h.counters⟩
  · intro id b hb
    rw [hblocks] at hb
    split at hb
    · next hid =>
      cases hb
      exact ⟨_, (hlive holder).trans (if_pos rfl), SortedMap.contains_insert.2 (.inl hid)⟩
    · obtain ⟨l', hl', hmem⟩ := h.owner id b hb
      by_cases hh : b.holder = holder
      · rw [hh, hl] at hl'
        cases hl'
        refine ⟨_, (hlive b.holder).trans (if_pos hh), ?_⟩
        exact SortedMap.contains_insert.2 (.inr hmem)
      · exact ⟨l', ((hlive b.holder).trans (if_neg hh)).trans hl', hmem⟩
  · intro h' l' id hl' hmem
    rw [hlive] at hl'
    split at hl'
    · next hh =>
      cases hl'
      rcases SortedMap.contains_insert.1 hmem with hid | hmem
      · exact ⟨_, (hblocks id).trans (if_pos hid), hh.symm⟩
      · obtain ⟨b, hb, hbh⟩ := h.owned holder l id hl hmem
        have hne := (h.ids id b hb).ne
        exact ⟨b, ((hblocks id).trans (if_neg hne)).trans hb, hbh.trans hh.symm⟩
    · obtain ⟨b, hb, hbh⟩ := h.owned h' l' id hl' hmem
      have hne := (h.ids id b hb).ne
      exact ⟨b, ((hblocks id).trans (if_neg hne)).trans hb, hbh⟩
  · intro id b hb
    show id < d.nextBlock + 1
    rw [hblocks] at hb
    split at hb
    · omega
    · have := h.ids id b hb
      omega
  · intro h' l' hl'
    rw [hlive] at hl'
    split at hl'
    · cases hl'
      exact h.accept holder l hl
    · exact h.accept h' l' hl'
  · intro hd
    rw [(h.nodata hd).2] at hl
    cases hl

theorem Books.answerEmpty (h : Books d) (holder : Holder)
    (accept : List Nat) : Books (d.answerEmpty holder accept).2 := by
  unfold Dispenser.answerEmpty
  split
  · exact h.log _
  · split
    · exact Books.log (h.update_live holder
        (f := fun l => { l with waiting := true }) (fun _ => rfl)
        (fun l hl => h.accept holder l hl)) _
    · exact h

theorem acceptOf_eq (h : d.live.find holder = some l) : d.acceptOf holder = l.accept := by
  unfold acceptOf
  rw [h]
  rfl

/-- A claim is refused and changes nothing, or it collects and then grants,
if there is something to grant. -/
theorem claimNew_cases {P : Dispenser → Prop} (hl : d.live.find holder = some l) (wanted : Nat)
    (hrefused : P d) (hempty : (d.collect l.accept wanted).1 = [] →
      P ((d.collect l.accept wanted).2.answerEmpty holder l.accept).2)
    (hgrant : P ((d.collect l.accept wanted).2.grant holder (d.collect l.accept wanted).1).2) :
    P (d.claimNew holder wanted).2 := by
  dsimp only [claimNew]
  rw [acceptOf_eq hl]
  split
  · exact hrefused
  split
  · next h => exact hempty (isEmpty_iff.1 h)
  · exact hgrant

theorem Books.claimNew (h : Books d) (hl : d.live.find holder = some l) (wanted : Nat) :
    Books (d.claimNew holder wanted).2 := by
  have hc := h.collect wanted (h.accept holder l hl).2.2
  have hlive : (d.collect l.accept wanted).2.live.find holder = some l := by
    rw [(gave_collect d l.accept wanted).live]
    exact hl
  exact claimNew_cases hl wanted h (fun _ => hc.answerEmpty holder _) (hc.grant hlive)

end Yeto.Dispense
