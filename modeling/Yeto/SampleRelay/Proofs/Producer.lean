/-
Exactly once, from the producer to the channel.

While a `put_blocking` call is at work its number is in use, and every request
and every store that carries it carries the call's own data (`Sound.stale`,
`Sound.stores`). So a DUPLICATE means that this item is stored.

FULL gives the number back. If the call is then told to stop, the next call
takes the number for OTHER data, while a request of the abandoned call may
still sit in a connection that broke earlier. `settledStop` is what the source
takes for granted there: nothing of the number is stored or on its way.
-/
import Yeto.SampleRelay.Proofs.History
import Mathlib.Data.List.Nodup

namespace Yeto.SampleRelay

open Lib List Producer World History

variable {seq : Nat} {op : Op} {reply : PutReply} {q : Request} {st : Store}

def History.mine (h : History) (p : Producer) : List Store :=
  (h.own p.channel).filter fun st => decide (st.key = p.key)

/-- Every item the producer reported as stored is stored, once. -/
def ExactlyOnce (w : World) : Prop := (w.reports.map Report.seq).Nodup ∧ ∀ rep ∈ w.reports,
      ((w.history.mine w.producer).map Store.seq).count rep.seq = 1
        ∧ ∃ st ∈ w.history.mine w.producer, st.seq = rep.seq ∧ st.payload = rep.data

/-- A call that stops on FULL leaves nothing of its number behind: neither
in the relay nor in a broken connection. -/
def settledStop (w : World) : Op → Bool
  | .stop =>
    let p := w.producer
    (((w.history.relay.channels p.channel).producers p.key).all fun last => decide (last.1 ≤ p.seq))
      && w.stale.all fun q => decide (q.1 ≤ p.seq)
  | _ => true

/-- The number a call uses, with its data. After FULL it is given back,
and the call has not let go of it. -/
def Producer.inUse (p : Producer) : Option (Nat × Payload) :=
  match p.phase with
  | .idle => none
  | .putting data => some (p.seq, data)
  | .waiting data => some (p.seq + 1, data)

def Producer.top (p : Producer) : Nat :=
  match p.phase with
  | .idle | .putting _ => p.seq
  | .waiting _ => p.seq + 1

/-- A number at most the greatest, and in use only with the call's data. -/
def Producer.Fits (p : Producer) (n : Nat) (data : Payload) : Prop :=
  n ≤ p.top ∧ ∀ m d, p.inUse = some (m, d) → n = m → data = d

structure Sound (cfg : RelayConfig) (w : World) : Prop where
  history : HistoryOk cfg w.history
  /-- Something is on its way only while a request is being sent. -/
  link : (∃ data, w.producer.phase = .putting data)
    ∨ w.producer.link = .down ∨ w.producer.link = .up
  positive : ∀ data, w.producer.phase = .putting data → 1 ≤ w.producer.seq
  stale : ∀ q ∈ w.stale, w.producer.Fits q.1 q.2
  stores : ∀ st ∈ w.history.mine w.producer, w.producer.Fits st.seq st.payload
  /-- An answer other than FULL means that the item is stored. -/
  answer : ∀ data reply, w.producer.phase = .putting data →
    w.producer.link = .answered (.ok reply) → reply.status ≠ .full →
    ∃ st ∈ w.history.mine w.producer, st.seq = w.producer.seq ∧ st.payload = data
  reported : ∀ rep ∈ w.reports, (∃ st ∈ w.history.mine w.producer,
      st.seq = rep.seq ∧ st.payload = rep.data) ∧ rep.seq ≤ w.producer.top
    ∧ ∀ m d, w.producer.inUse = some (m, d) → rep.seq ≠ m
  distinct : (w.reports.map Report.seq).Nodup

variable {data : Payload}

section Requests

variable {cfg : RelayConfig} {h : History} {p : Producer}

theorem mine_congr {p' : Producer} (hc : p'.channel = p.channel) (hk : p'.key = p.key) :
    h.mine p' = h.mine p := by
  unfold mine
  rw [hc, hk]

theorem mine_serve : (h.serve q).mine p = h.mine p ++ (h.relay.stored q).filter fun st =>
        decide (st.channel = p.channel) && decide (st.key = p.key) := by
  unfold mine own
  rw [filter_filter, filter_filter]
  show List.filter _ (h.stores ++ h.relay.stored q) = _
  rw [filter_append]
  simp only [Bool.and_comm]

theorem mine_serve_foreign (hq : q.foreign p = true) : (h.serve q).mine p = h.mine p := by
  rw [mine_serve]
  refine append_right_eq_self.2 (filter_eq_nil_iff.2 ?_)
  intro st hst
  have hstep := serve_step h.relay q
  generalize h.relay.serve q = r' at hstep
  generalize h.relay.attaches q = attached at hstep
  generalize h.relay.stored q = stores at hstep hst
  cases hstep with
  | stored =>
    cases mem_singleton.1 hst
    have hne := of_decide_eq_true hq
    rw [Bool.and_eq_true, decide_eq_true_iff, decide_eq_true_iff]
    exact hne
  | _ => cases hst

theorem mine_serve_request (seq : Nat) (data : Payload) :
    (h.serve (p.request seq data)).mine p = h.mine p ∨ ∃ id, (h.serve (p.request seq data)).mine p
        = h.mine p ++ [⟨p.channel, p.key, seq, id, data⟩] := by
  rw [mine_serve]
  have hstep := serve_step h.relay (p.request seq data)
  generalize h.relay.serve (p.request seq data) = r' at hstep
  generalize h.relay.stored (p.request seq data) = stores at hstep ⊢
  cases hstep with
  | stored =>
    refine .inr ⟨(h.relay.channels p.channel).nextId, ?_⟩
    rw [filter_cons_of_pos, filter_nil]
    rw [Bool.and_eq_true, decide_eq_true_iff, decide_eq_true_iff]
    exact ⟨rfl, rfl⟩
  | _ => exact .inl (append_nil _)

theorem mem_mine_serve_request (hst : st ∈ (h.serve (p.request seq data)).mine p) :
    st ∈ h.mine p ∨ st.seq = seq ∧ st.payload = data := by
  rcases mine_serve_request (h := h) (p := p) seq data with heq | ⟨id, heq⟩
  · exact .inl (heq ▸ hst)
  · rw [heq] at hst
    rcases mem_snoc.1 hst with hst | rfl
    · exact .inl hst
    · exact .inr ⟨rfl, rfl⟩

theorem mine_subset_serve (hst : st ∈ h.mine p) : st ∈ (h.serve q).mine p := by
  rw [mine_serve]
  exact mem_append_left _ hst

theorem mem_mine_iff : st ∈ h.mine p ↔ st ∈ h.own p.channel ∧ st.key = p.key := by
  unfold mine
  rw [mem_filter, decide_eq_true_iff]

theorem stored_of_put (hok : HistoryOk cfg h) {r' : Relay}
    (hput : h.relay.put p.channel p.key seq data = .ok (reply, r'))
    (hstatus : reply.status ≠ .full) :
    ∃ st ∈ (h.serve (p.request seq data)).mine p, seq ≤ st.seq := by
  cases put_step hput with
  | @duplicate last id _ was le num status =>
    obtain ⟨st, hst, hkey, hseq⟩ := (hok.channels p.channel).last _ _ _ was
    refine ⟨st, mine_subset_serve (mem_mine_iff.2 ⟨hst, hkey⟩), ?_⟩
    rw [hseq]
    exact le
  | full new num status => exact absurd status hstatus
  | stored new items bytes num status id =>
    refine ⟨⟨p.channel, p.key, seq, reply.itemId, data⟩, ?_, le_rfl⟩
    rw [mine_serve]
    refine mem_append_right _ (mem_filter.2 ⟨?_, ?_⟩)
    · dsimp only [request, Relay.stored]
      rw [hput]
      dsimp only
      rw [if_pos status]
      exact mem_singleton_self _
    · rw [Bool.and_eq_true, decide_eq_true_iff, decide_eq_true_iff]
      exact ⟨rfl, rfl⟩

end Requests

section Steps

variable {cfg : RelayConfig} {w w' : World}

theorem sound_new {epoch : Nat} {channel : Nat} {key : ProducerKey} :
    Sound cfg (.new cfg epoch channel key) where
  history := historyOk_new
  link := .inr (.inl rfl)
  positive := nofun
  stale := nofun
  stores := nofun
  answer := nofun
  reported := nofun
  distinct := nodup_nil

/-- The relay handles a request that fits: one of another client, or one of
the producer's own numbers. -/
theorem Sound.serve (h : Sound cfg w) (hmine : ∀ st ∈ (w.history.serve q).mine w.producer,
      st ∈ w.history.mine w.producer ∨ w.producer.Fits st.seq st.payload) :
    Sound cfg { w with history := w.history.serve q } :=
  { h with
  history := h.history.serve q
  stores st hst := (hmine st hst).elim (h.stores st) id
  answer data reply hphase hlink hstatus := by
    obtain ⟨st, hst, heq⟩ := h.answer data reply hphase hlink hstatus
    exact ⟨st, mine_subset_serve hst, heq⟩
  reported rep hrep := by
    obtain ⟨⟨st, hst, heq⟩, hrest⟩ := h.reported rep hrep
    exact ⟨⟨st, mine_subset_serve hst, heq⟩, hrest⟩ }

theorem Sound.serve_foreign (h : Sound cfg w) (hq : q.foreign w.producer = true) :
    Sound cfg { w with history := w.history.serve q } := by
  refine h.serve fun st hst => .inl ?_
  rwa [mine_serve_foreign hq] at hst

theorem Sound.serve_request (h : Sound cfg w) (hfits : w.producer.Fits seq data) :
    Sound cfg { w with
      history := w.history.serve (w.producer.request seq data) } := by
  refine h.serve fun st hst => ?_
  rcases mem_mine_serve_request hst with hst | ⟨hseq, hdata⟩
  · exact .inl hst
  · rw [hseq, hdata]
    exact .inr hfits

variable {p : Producer}

/-- Only the producer's phase, number or link changes, and the number in
use, if there is one, is the same or new. -/
theorem Sound.move (h : Sound cfg w)
    (hc : p.channel = w.producer.channel) (hk : p.key = w.producer.key)
    (hlink : p.link = .down ∨ p.link = .up ∨ p.link = w.producer.link ∧ p.phase = w.producer.phase)
    (hpos : ∀ data, p.phase = .putting data → 1 ≤ p.seq)
    (hseq : p.phase = w.producer.phase → p.seq = w.producer.seq) (htop : w.producer.top ≤ p.top)
    (huse : p.inUse = none ∨ p.inUse = w.producer.inUse
      ∨ ∃ m d, p.inUse = some (m, d) ∧ w.producer.top < m) :
    Sound cfg { w with producer := p } := by
  have hmine : w.history.mine p = w.history.mine w.producer := mine_congr hc hk
  have hfits : ∀ {n d}, w.producer.Fits n d → p.Fits n d := by
    rintro n d ⟨hn, hd⟩
    refine ⟨le_trans hn htop, fun m e hm hnm => ?_⟩
    rcases huse with hnone | hsame | ⟨m', e', hnew, hlt⟩
    · rw [hnone] at hm
      cases hm
    · exact hd m e (hsame ▸ hm) hnm
    · rw [hnew] at hm
      cases hm
      omega
  refine ⟨h.history, ?_, hpos, fun q hq => hfits (h.stale q hq), ?_, ?_, ?_, h.distinct⟩
  · rcases hlink with hl | hl | ⟨hl, hphase⟩
    · exact .inr (.inl hl)
    · exact .inr (.inr hl)
    · show (∃ data, p.phase = _) ∨ p.link = _ ∨ p.link = _
      rw [hl, hphase]
      exact h.link
  · intro st hst
    exact hfits (h.stores st (hmine ▸ hst))
  · intro data reply hphase hanswer hstatus
    rcases hlink with hl | hl | ⟨hl, hsame⟩
    · exact absurd (hl.symm.trans hanswer) nofun
    · exact absurd (hl.symm.trans hanswer) nofun
    · show ∃ st ∈ w.history.mine p, st.seq = p.seq ∧ st.payload = data
      rw [hmine, hseq hsame]
      exact h.answer data reply (hsame ▸ hphase) (hl ▸ hanswer) hstatus
  · intro rep hrep
    obtain ⟨hst, hle, hne⟩ := h.reported rep hrep
    refine ⟨hmine ▸ hst, le_trans hle htop, fun m d hm => ?_⟩
    rcases huse with hnone | hsame | ⟨m', e', hnew, hlt⟩
    · exact absurd (hnone.symm.trans hm) nofun
    · exact hne m d (hsame ▸ hm)
    · cases hnew.symm.trans hm
      omega

section

variable (hphase : p.phase = .putting data)
include hphase

theorem top_putting : p.top = p.seq := by
  unfold top
  rw [hphase]

theorem inUse_putting : p.inUse = some (p.seq, data) := by
  unfold inUse
  rw [hphase]

theorem fits_putting : p.Fits p.seq data := by
  refine ⟨(top_putting hphase).ge, fun m d hm _ => ?_⟩
  rw [inUse_putting hphase] at hm
  cases hm
  rfl

end

theorem Sound.quiet (h : Sound cfg w) (hphase : ∀ data, w.producer.phase ≠ .putting data) :
    w.producer.link = .down ∨ w.producer.link = .up :=
  h.link.resolve_left fun ⟨data, hd⟩ => hphase data hd

theorem fits_leftover {q : Nat × Payload} (hq : q ∈ p.leftover) : p.Fits q.1 q.2 := by
  unfold leftover at hq
  split at hq
  · next data hlink hphase =>
    cases mem_singleton.1 hq
    exact fits_putting hphase
  · cases hq

theorem Sound.answered (h : Sound cfg w) (hphase : w.producer.phase = .putting data)
    (hlink : w.producer.link = .answered (.ok reply)) : Sound cfg (w.answered data reply) := by
  have hpos := h.positive data hphase
  have htop := top_putting hphase
  have huse := inUse_putting hphase
  dsimp only [World.answered]
  split
  · exact h.move rfl rfl (.inr (.inl rfl)) h.positive (fun _ => rfl) le_rfl (.inr (.inl rfl))
  -- An acknowledgement: the item is stored, and its number is spent.
  have hdone : reply.status ≠ .full → Sound cfg { w with
      producer := { w.producer with
          stored := w.producer.stored + 1
          phase := .idle
          link := .up }
      reports := w.reports ++ [⟨w.producer.seq, data⟩] } := by
    intro hstatus
    have hst := h.answer data reply hphase hlink hstatus
    have hidle := h.move (p := { w.producer with
        stored := w.producer.stored + 1
        phase := .idle
        link := .up }) rfl rfl (.inr (.inl rfl)) nofun (fun _ => rfl) (le_of_eq htop) (.inl rfl)
    refine { hidle with reported := fun rep hrep => ?_, distinct := ?_ }
    · rcases mem_snoc.1 hrep with hrep | rfl
      · exact hidle.reported rep hrep
      · exact ⟨hst, le_rfl, nofun⟩
    · rw [map_append, nodup_append]
      refine ⟨h.distinct, pairwise_singleton _ _, ?_⟩
      intro n hn m hm
      obtain ⟨rep, hrep, rfl⟩ := mem_map.1 hn
      cases mem_singleton.1 hm
      exact (h.reported rep hrep).2.2 _ _ huse
  split
  · refine h.move rfl rfl (.inr (.inl rfl)) nofun
      (fun heq => absurd (heq.trans hphase) nofun) ?_ (.inr (.inl ?_))
    · show _ ≤ w.producer.seq - 1 + 1
      omega
    · rw [huse]
      show some (w.producer.seq - 1 + 1, data) = _
      rw [Nat.sub_add_cancel hpos]
  · next hs => exact hdone (by rw [hs]; decide)
  · next hs => exact hdone (by rw [hs]; decide)

theorem Sound.handle (h : Sound cfg w) (hphase : w.producer.phase = .putting data) :
    Sound cfg { w with
      history := w.history.serve (w.producer.request w.producer.seq data)
      producer := { w.producer with
          link := .answered ((w.history.relay.put w.producer.channel
            w.producer.key w.producer.seq data).map Prod.fst) } } := by
  have hserved := h.serve_request (fits_putting hphase)
  refine ⟨hserved.history, .inl ⟨data, hphase⟩, hserved.positive,
    hserved.stale, hserved.stores, fun d reply hd hlink hstatus => ?_,
    hserved.reported, hserved.distinct⟩
  cases hphase.symm.trans hd
  cases hput : w.history.relay.put w.producer.channel w.producer.key w.producer.seq data with
  | error text =>
    rw [hput] at hlink
    cases hlink
  | ok out =>
    rw [hput] at hlink
    cases hlink
    -- No number of the sequence is above the one in use.
    obtain ⟨st, hst, hle⟩ := stored_of_put h.history hput hstatus
    obtain ⟨htop, hdata⟩ := hserved.stores st hst
    have hseq : st.seq = w.producer.seq := Nat.le_antisymm (top_putting hphase ▸ htop) hle
    exact ⟨st, hst, hseq, hdata _ _ (inUse_putting hphase) hseq⟩

theorem Sound.stop (h : Sound cfg w) (hphase : w.producer.phase = .waiting data)
    (hset : settledStop w .stop = true) :
    Sound cfg { w with producer := { w.producer with phase := .idle } } := by
  obtain ⟨hlast, hstale⟩ := (Bool.and_eq_true _ _).mp hset
  have hstale : ∀ q ∈ w.stale, q.1 ≤ w.producer.seq := fun q hq =>
    of_decide_eq_true (all_eq_true.1 hstale q hq)
  have huse : w.producer.inUse = some (w.producer.seq + 1, data) := by
    unfold inUse
    rw [hphase]
  have hidle : ∀ {n d}, n ≤ w.producer.seq → Producer.Fits { w.producer with phase := .idle } n d :=
    fun hn => ⟨hn, nofun⟩
  refine ⟨h.history, ?_, nofun, fun q hq => hidle (hstale q hq),
    fun st hst => hidle ?_, nofun, fun rep hrep => ?_, h.distinct⟩
  · exact .inr (h.quiet (by simp [hphase]))
  · obtain ⟨hown, hkey⟩ := mem_mine_iff.1 hst
    obtain ⟨last, id, hknown, hle⟩ := (h.history.channels w.producer.channel).known st hown
    rw [hkey] at hknown
    rw [hknown] at hlast
    exact le_trans hle (of_decide_eq_true hlast)
  · obtain ⟨hst, hle, hne⟩ := h.reported rep hrep
    refine ⟨hst, ?_, nofun⟩
    have hle' : rep.seq ≤ w.producer.seq + 1 := by
      unfold top at hle
      rw [hphase] at hle
      exact hle
    have := hne _ _ huse
    show rep.seq ≤ w.producer.seq
    omega

/-- Every step keeps the producer and the relay together, as long as a call
that stops leaves nothing behind. -/
theorem Sound.step (h : Sound cfg w) (hset : settledStop w op = true)
    (hexec : w.exec op = some w') : Sound cfg w' := by
  cases op with dsimp only [exec] at hexec
  | serve q =>
    obtain ⟨hq, rfl⟩ := of_guard hexec
    exact h.serve_foreign hq
  | call data =>
    split at hexec <;> cases hexec
    next hphase =>
    have htop : w.producer.top = w.producer.seq := by
      unfold top
      rw [hphase]
    refine h.move rfl rfl ?_ (fun _ _ => Nat.succ_pos _)
      (fun heq => absurd (heq.trans hphase) nofun)
      (htop ▸ Nat.le_succ _) (.inr (.inr ⟨_, _, rfl, ?_⟩))
    · exact (h.quiet (by simp [hphase])).imp_right .inl
    · rw [htop]
      exact Nat.lt_succ_self _
  | connect =>
    split at hexec <;> cases hexec
    exact h.move rfl rfl (.inr (.inl rfl)) h.positive (fun _ => rfl) le_rfl (.inr (.inl rfl))
  | send =>
    split at hexec <;> cases hexec
    next data hlink hphase => exact { h with link := .inl ⟨data, hphase⟩, answer := nofun }
  | handle =>
    split at hexec <;> cases hexec
    next data hlink hphase => exact h.handle hphase
  | fence text =>
    split at hexec <;> cases hexec
    next hlink =>
    refine { h with link := .inl ?_, answer := nofun }
    rcases h.link with hphase | hdown | hup
    · exact hphase
    · exact absurd (hlink.symm.trans hdown) nofun
    · exact absurd (hlink.symm.trans hup) nofun
  | receive =>
    split at hexec <;> cases hexec
    · next reply data hlink hphase => exact h.answered hphase hlink
    · next text data hlink hphase =>
      exact h.move rfl rfl (.inl rfl) nofun (fun heq => absurd (heq.trans hphase) nofun)
        (top_putting hphase).le (.inl rfl)
  | breakLink =>
    cases hexec
    have hdown := h.move (p := { w.producer with link := .down }) rfl rfl
      (.inl rfl) h.positive (fun _ => rfl) le_rfl (.inr (.inl rfl))
    refine { hdown with stale := fun q hq => ?_ }
    rcases mem_append.1 hq with hq | hq
    · exact hdown.stale q hq
    · exact fits_leftover (p := w.producer) hq
  | handleStale i =>
    split at hexec <;> cases hexec
    next seq data hq =>
    have hserved := h.serve_request (h.stale _ (mem_of_getElem? hq))
    exact { hserved with
      stale := fun q hq => hserved.stale q (mem_of_mem_eraseIdx hq) }
  | dropStale i =>
    cases hexec
    exact { h with
      stale := fun q hq => h.stale q (mem_of_mem_eraseIdx hq) }
  | giveUp =>
    split at hexec <;> cases hexec
    next data hlink hphase =>
    exact h.move rfl rfl (.inl hlink) nofun
      (fun heq => absurd (heq.trans hphase) nofun) (top_putting hphase).le (.inl rfl)
  | again =>
    split at hexec <;> cases hexec
    next data hphase =>
    refine h.move rfl rfl ?_ (fun _ _ => Nat.succ_pos _)
      (fun heq => absurd (heq.trans hphase) nofun) ?_ (.inr (.inl ?_))
    · exact (h.quiet (by simp [hphase])).imp_right .inl
    · unfold top
      rw [hphase]
    · unfold inUse
      rw [hphase]
  | stop =>
    split at hexec <;> cases hexec
    next data hphase => exact h.stop hphase hset

end Steps

section Runs

variable {cfg : RelayConfig} {epoch channel : Nat} {key : ProducerKey} {w : World}

theorem sound_reachable (h : (runs cfg epoch channel key settledStop).Reachable w) : Sound cfg w :=
  System.guarded_invariant sound_new (fun _ _ _ hw hset hexec => hw.step hset hexec) h

theorem Sound.exactlyOnce (h : Sound cfg w) : ExactlyOnce w := by
  refine ⟨h.distinct, fun rep hrep => ?_⟩
  obtain ⟨st, hst, hseq, hdata⟩ := (h.reported rep hrep).1
  refine ⟨?_, st, hst, hseq, hdata⟩
  refine count_eq_one_of_mem ?_ (hseq ▸ mem_map_of_mem hst)
  -- Within the producer's own sequence the numbers alone are distinct.
  have honce := (h.history.channels w.producer.channel).once
  have hsub : ((w.history.mine w.producer).map fun st => (st.key, st.seq)).Nodup :=
    honce.sublist (filter_sublist.map _)
  refine List.Nodup.of_map (fun n => (w.producer.key, n)) ?_
  rw [map_map]
  convert hsub using 1
  refine map_congr_left fun st hst => ?_
  rw [(mem_mine_iff.1 hst).2]
  rfl

theorem exec_history {w' : World} (h : w.exec op = some w') :
    w'.history = w.history ∨ ∃ q, w'.history = w.history.serve q := by
  cases op with dsimp only [exec] at h
  | serve q =>
    obtain ⟨-, rfl⟩ := of_guard h
    exact .inr ⟨q, rfl⟩
  | handle | handleStale =>
    split at h <;> cases h
    exact .inr ⟨_, rfl⟩
  | receive =>
    split at h <;> cases h
    · refine .inl ?_
      dsimp only [World.answered]
      split
      · rfl
      · split <;> rfl
    · exact .inl rfl
  | breakLink | dropStale => cases h; exact .inl rfl
  | call data | connect | send | fence text | giveUp | again | stop =>
    split at h <;> cases h
    exact .inl rfl

theorem historyOk_reachable (h : (runs cfg epoch channel key anyOp).Reachable w) :
    HistoryOk cfg w.history := by
  refine System.guarded_invariant (P := fun w => HistoryOk cfg w.history)
    historyOk_new (fun w w' op hw _ hexec => ?_) h
  rcases exec_history hexec with heq | ⟨q, heq⟩ <;> rw [heq]
  · exact hw
  · exact hw.serve q

end Runs

/-- The sample relay delivers: its laws hold whatever its clients do, and
every item a producer reports is stored exactly once — in every run where
a call that stops on FULL leaves nothing of its number behind. -/
theorem relay_delivers (cfg : RelayConfig) (epoch channel : Nat) (key : ProducerKey) :
    (∀ w, (runs cfg epoch channel key anyOp).Reachable w → RelayLaws cfg w.history)
    ∧ ∀ w, (runs cfg epoch channel key settledStop).Reachable w → ExactlyOnce w :=
  ⟨fun _ h => (historyOk_reachable h).laws, fun _ h => (sound_reachable h).exactlyOnce⟩

def tightConfig : RelayConfig := ⟨1, 16, 8⟩

def sampler : ProducerKey := ⟨7, 70, 700⟩

/-- Another sampler fills the channel; the producer's first request is left
behind in a broken connection, the second one is answered FULL, and the
call is told to stop. The consumer makes room, the relay handles the
request left behind, and the next call takes the same number. -/
def lostItem : List Op := [.serve (.put 3 ⟨8, 80, 800⟩ 1 [0]), .serve (.attach 3 0 1),
    .call [1], .connect, .send, .breakLink, .connect, .send, .handle, .receive,
    .serve (.take 3 1 ⟨0, 1, 8, 64⟩), .handleStale 0, .stop, .call [2], .send, .handle, .receive]

/-- An item is reported as stored, and the relay never stored it. -/
theorem reported_item_lost : tightConfig.validate = .ok ()
    ∧ ∃ w, (runs tightConfig 9 3 sampler anyOp).Reachable w ∧ w.reports = [⟨1, [2]⟩]
      ∧ (∀ st ∈ w.history.stores, st.payload ≠ [2]) ∧ ¬ ExactlyOnce w := by
  refine ⟨rfl, ?_⟩
  obtain ⟨w, hreach, hreports, hstores⟩ : ∃ w, (runs tightConfig 9 3 sampler anyOp).Reachable w
      ∧ w.reports = [⟨1, [2]⟩] ∧ ∀ st ∈ w.history.stores, st.payload ≠ [2] :=
    System.exists_reachable lostItem (by decide +kernel)
  refine ⟨w, hreach, hreports, hstores, fun h => ?_⟩
  obtain ⟨-, st, hst, -, hdata⟩ := h.2 ⟨1, [2]⟩ (by rw [hreports]; exact mem_singleton_self _)
  refine hstores st ?_ hdata
  exact (mem_filter.1 (mem_mine_iff.1 hst).1).1

/-- A break, FULL and a retry: the request left behind is handled first,
and the item arrives once. -/
def retriedItem : List Op := [.serve (.put 3 ⟨8, 80, 800⟩ 1 [0]), .serve (.attach 3 0 1),
    .call [1], .connect, .send, .breakLink, .connect, .send, .handle, .receive,
    .serve (.take 3 1 ⟨0, 1, 8, 64⟩), .handleStale 0, .again, .send, .handle, .receive]

theorem relay_delivers_retried : ∃ w, (runs tightConfig 9 3 sampler settledStop).Reachable w
      ∧ w.reports = [⟨1, [1]⟩] ∧ ExactlyOnce w := by
  obtain ⟨w, hreach, hreports⟩ : ∃ w, (runs tightConfig 9 3 sampler settledStop).Reachable w
      ∧ w.reports = [⟨1, [1]⟩] := System.exists_reachable retriedItem (by decide +kernel)
  exact ⟨w, hreach, hreports, (relay_delivers tightConfig 9 3 sampler).2 w hreach⟩

end Yeto.SampleRelay
