/-
What a relay keeps over its whole history.

`ServeStep` lists what one request can do. A channel is compared with the part
of the history that is its own (`ChannelHistory`), and a request touches one
channel. The number of a store appears once in a channel, because a channel
takes only greater ones (`ChannelHistory.known`).
-/
import Yeto.SampleRelay.System
import Yeto.SampleRelay.Proofs.Channel

namespace Yeto.SampleRelay

open Lib List History

inductive ServeStep (r : Relay) : Request → Relay → List Store → List (Nat × Nat) → Prop
  | refused (q : Request) : ServeStep r q r [] []
  | attach (channel client incarnation : Nat) : ServeStep r (.attach channel client incarnation)
        (r.attachConsumer channel client incarnation).2 [] [(channel, r.nextConnection)]
  | duplicate (channel : Nat) (key : ProducerKey) (seq : Nat) (payload : Payload) :
      ServeStep r (.put channel key seq payload)
        (r.setChannel channel (r.channels channel).duplicate) [] []
  | full (channel : Nat) (key : ProducerKey) (seq : Nat) (payload : Payload) :
      ServeStep r (.put channel key seq payload)
        (r.setChannel channel (r.channels channel).full) [] []
  | stored {channel : Nat} {key : ProducerKey} {seq : Nat} {payload : Payload}
      (new : ∀ last id, (r.channels channel).producers key = some (last, id) → last < seq)
      (items : (r.channels channel).items.length < r.cfg.maxItems)
      (bytes : (r.channels channel).bytes + payload.length ≤ r.cfg.maxBytes) :
      ServeStep r (.put channel key seq payload)
        (r.setChannel channel ((r.channels channel).store key seq payload))
        [⟨channel, key, seq, (r.channels channel).nextId, payload⟩] []
  | taken {channel token : Nat} {q : TakeRequest}
      (cur : (r.channels channel).current = some token) :
      ServeStep r (.take channel token q) (r.setChannel channel
          ((r.channels channel).acknowledge q.ackThrough)) [] []

theorem serve_step (r : Relay) (q : Request) :
    ServeStep r q (r.serve q) (r.stored q) (r.attaches q) := by
  cases q with
  | attach channel client incarnation => exact .attach ..
  | put channel key seq payload =>
    dsimp only [Relay.serve, Relay.stored, Relay.attaches]
    cases h : r.put channel key seq payload with
    | error => exact .refused _
    | ok out =>
      obtain ⟨reply, r'⟩ := out
      have hstep := put_step h
      dsimp only
      cases hstep with
      | duplicate was le num status =>
        rw [status, if_neg (by decide)]
        exact .duplicate ..
      | full new num status =>
        rw [status, if_neg (by decide)]
        exact .full ..
      | stored new items bytes num status id =>
        rw [if_pos status, id]
        exact .stored new items bytes
  | take channel token q =>
    dsimp only [Relay.serve, Relay.stored, Relay.attaches]
    cases h : r.serveTake channel token q with
    | error => exact .refused _
    | ok out =>
      obtain ⟨out, r'⟩ := out
      obtain ⟨hcur, -, -, rfl⟩ := take_ok h
      exact .taken hcur

/-- A channel against the items it ever stored and the connections it ever
attached. -/
structure ChannelHistory (cfg : RelayConfig) (own : List Store)
    (tokens : List Nat) (ch : Channel) : Prop where
  ok : ChannelOk cfg ch
  /-- No number above the last one the channel remembers. -/
  known : ∀ st ∈ own, ∃ last id, ch.producers st.key = some (last, id) ∧ st.seq ≤ last
  /-- The last number was stored. -/
  last : ∀ key last id, ch.producers key = some (last, id) →
    ∃ st ∈ own, st.key = key ∧ st.seq = last
  once : (own.map fun st => (st.key, st.seq)).Nodup
  /-- The ids given out, in the order of the stores. -/
  numbered : own.map Store.id = List.range' 1 own.length ∧ own.length + 1 = ch.nextId
  held : ∀ item ∈ ch.items, ∃ st ∈ own, st.id = item.id
    ∧ st.payload = item.payload ∧ st.key.producer = item.producer
  /-- The current connection is the newest. -/
  newest : ∀ t, ch.current = some t → ∀ u ∈ tokens, u ≤ t

namespace ChannelHistory

variable {cfg : RelayConfig} {own : List Store} {tokens : List Nat} {ch : Channel}

theorem empty : ChannelHistory cfg [] [] .new where
  ok := channelOk_new
  known := nofun
  last := nofun
  once := nodup_nil
  numbered := ⟨rfl, rfl⟩
  held := nofun
  newest := nofun

section

variable (h : ChannelHistory cfg own tokens ch)
include h

theorem duplicate : ChannelHistory cfg own tokens ch.duplicate := { h with ok := h.ok.duplicate }

theorem full : ChannelHistory cfg own tokens ch.full := { h with ok := h.ok.full }

theorem attach {c : Consumer} (hnew : ∀ u ∈ tokens, u < c.token) :
    ChannelHistory cfg own (tokens ++ [c.token]) { ch with consumer := some c } :=
  { h with
  ok := h.ok.attach _
  newest t ht u hu := by
    cases ht
    rcases mem_append.1 hu with hu | hu
    · exact Nat.le_of_lt (hnew u hu)
    · exact le_of_eq (mem_singleton.1 hu) }

theorem acknowledge (ack : Nat) : ChannelHistory cfg own tokens (ch.acknowledge ack) :=
  { h with
  ok := h.ok.acknowledge ack
  held item hmem := h.held item (h.ok.mem_acknowledge.1 hmem).1 }

theorem store {key : ProducerKey} {seq : Nat} {payload : Payload}
    (hnew : ∀ last id, ch.producers key = some (last, id) → last < seq)
    (hitems : ch.items.length < cfg.maxItems) (hbytes : ch.bytes + payload.length ≤ cfg.maxBytes)
    (c : Nat) : ChannelHistory cfg (own ++ [⟨c, key, seq, ch.nextId, payload⟩]) tokens
      (ch.store key seq payload) := by
  -- What the channel remembers of the producer is below the new number.
  have hbelow : ∀ st ∈ own, st.key = key → st.seq < seq := by
    intro st hst hkey
    obtain ⟨last, id, hlast, hle⟩ := h.known st hst
    rw [hkey] at hlast
    exact lt_of_le_of_lt hle (hnew last id hlast)
  have hself : (ch.store key seq payload).producers key = some (seq, ch.nextId) :=
    Function.update_self ..
  have hother : ∀ k ≠ key, (ch.store key seq payload).producers k = ch.producers k :=
    fun k hk => Function.update_of_ne hk ..
  refine ⟨h.ok.store key seq hitems hbytes, fun st hst => ?_,
    fun k last id hlast => ?_, ?_, ?_, fun item hmem => ?_, h.newest⟩
  · rcases mem_snoc.1 hst with hst | rfl
    · by_cases hkey : st.key = key
      · exact ⟨seq, ch.nextId, hkey ▸ hself, Nat.le_of_lt (hbelow st hst hkey)⟩
      · rw [hother st.key hkey]
        exact h.known st hst
    · exact ⟨seq, ch.nextId, hself, le_rfl⟩
  · by_cases hkey : k = key
    · subst hkey
      rw [hself] at hlast
      cases hlast
      exact ⟨_, mem_append_cons_self, rfl, rfl⟩
    · rw [hother k hkey] at hlast
      obtain ⟨st, hst, heq⟩ := h.last k last id hlast
      exact ⟨st, mem_append_left _ hst, heq⟩
  · rw [map_append, nodup_append]
    refine ⟨h.once, pairwise_singleton _ _, ?_⟩
    intro a ha b hb heq
    obtain ⟨st, hst, rfl⟩ := mem_map.1 ha
    rw [map_singleton, mem_singleton] at hb
    rw [hb] at heq
    obtain ⟨hkey, hseq⟩ := Prod.mk.inj heq
    exact absurd (hbelow st hst hkey) (hseq ▸ lt_irrefl _)
  · obtain ⟨hids, hnext⟩ := h.numbered
    rw [map_append, hids, length_append, length_singleton,
      List.range'_concat, Nat.one_mul, Nat.add_comm 1, hnext]
    exact ⟨rfl, rfl⟩
  · rcases mem_snoc.1 hmem with hmem | rfl
    · obtain ⟨st, hst, heq⟩ := h.held item hmem
      exact ⟨st, mem_append_left _ hst, heq⟩
    · exact ⟨_, mem_append_cons_self, rfl, rfl, rfl⟩

end

end ChannelHistory

def History.own (h : History) (c : Nat) : List Store :=
  h.stores.filter fun st => decide (st.channel = c)

def History.tokens (h : History) (c : Nat) : List Nat :=
  (h.attached.filter fun a => decide (a.1 = c)).map Prod.snd

structure HistoryOk (cfg : RelayConfig) (h : History) : Prop where
  config : h.relay.cfg = cfg
  channels : ∀ c, ChannelHistory cfg (h.own c) (h.tokens c) (h.relay.channels c)
  tokens : ∀ a ∈ h.attached, a.2 < h.relay.nextConnection
  ordered : (h.attached.map Prod.snd).Pairwise (· < ·)

section Kept

variable {cfg : RelayConfig} {h : History}

theorem historyOk_new {epoch : Nat} : HistoryOk cfg (.new cfg epoch) where
  config := rfl
  channels _ := .empty
  tokens := nofun
  ordered := List.Pairwise.nil

theorem HistoryOk.set (hok : HistoryOk cfg h) {c : Nat} {ch : Channel}
    {stores : List Store} (hstores : ∀ st ∈ stores, st.channel = c)
    (hch : ChannelHistory cfg (h.own c ++ stores) (h.tokens c) ch) :
    HistoryOk cfg ⟨h.relay.setChannel c ch, h.stores ++ stores, h.attached ++ []⟩ := by
  rw [append_nil]
  refine { hok with channels := fun d => ?_ }
  show ChannelHistory cfg ((h.stores ++ stores).filter _) (h.tokens d) _
  rw [filter_append]
  by_cases hd : d = c
  · subst hd
    rw [filter_eq_self.2 fun st hst => decide_eq_true (hstores st hst), channels_setChannel_self]
    exact hch
  · have hnone : stores.filter (fun st => decide (st.channel = d)) = [] := by
      refine filter_eq_nil_iff.2 fun st hst => ?_
      rw [hstores st hst, decide_eq_true_iff]
      exact fun h => hd h.symm
    rw [hnone, append_nil, channels_setChannel _ _ _ hd]
    exact hok.channels d

theorem HistoryOk.attach (hok : HistoryOk cfg h) (channel client incarnation : Nat) : HistoryOk cfg
      ⟨(h.relay.attachConsumer channel client incarnation).2, h.stores ++ [],
        h.attached ++ [(channel, h.relay.nextConnection)]⟩ := by
  rw [append_nil]
  refine ⟨hok.config, fun d => ?_, ?_, ?_⟩
  · show ChannelHistory cfg (h.own d) (map _ (filter _ (h.attached ++ _)))
      ((h.relay.setChannel channel _).channels d)
    rw [filter_append, map_append]
    by_cases hd : d = channel
    · subst hd
      rw [filter_cons_of_pos (by simp), channels_setChannel_self]
      refine (hok.channels d).attach (c := ⟨client, incarnation, _⟩) ?_
      intro u hu
      obtain ⟨a, ha, rfl⟩ := mem_map.1 hu
      exact hok.tokens a (mem_filter.1 ha).1
    · rw [filter_cons_of_neg (by simpa using Ne.symm hd), channels_setChannel _ _ _ hd,
        filter_nil, map_nil, append_nil]
      exact hok.channels d
  · intro a ha
    rcases mem_snoc.1 ha with ha | rfl
    · exact Nat.lt_succ_of_lt (hok.tokens a ha)
    · exact Nat.lt_succ_self _
  · rw [map_append, pairwise_append]
    refine ⟨hok.ordered, pairwise_singleton _ _, ?_⟩
    intro t ht u hu
    obtain ⟨a, ha, rfl⟩ := mem_map.1 ht
    cases mem_singleton.1 hu
    exact hok.tokens a ha

theorem HistoryOk.serve (hok : HistoryOk cfg h) (q : Request) : HistoryOk cfg (h.serve q) := by
  unfold History.serve
  have hstep := serve_step h.relay q
  generalize h.relay.serve q = r' at hstep ⊢
  generalize h.relay.stored q = stores at hstep ⊢
  generalize h.relay.attaches q = attached at hstep ⊢
  cases hstep with
  | refused =>
    rw [append_nil, append_nil]
    exact hok
  | attach channel client incarnation => exact hok.attach channel client incarnation
  | duplicate channel =>
    refine hok.set (fun _ hst => nomatch hst) ?_
    rw [append_nil]
    exact (hok.channels channel).duplicate
  | full channel =>
    refine hok.set (fun _ hst => nomatch hst) ?_
    rw [append_nil]
    exact (hok.channels channel).full
  | @stored channel key seq payload new items bytes =>
    rw [hok.config] at items bytes
    refine hok.set (fun st hst => ?_) ((hok.channels channel).store new items bytes channel)
    rw [mem_singleton.1 hst]
  | @taken channel token q =>
    refine hok.set (fun _ hst => nomatch hst) ?_
    rw [append_nil]
    exact (hok.channels channel).acknowledge q.ackThrough

end Kept

/-- What a relay guarantees, whatever its clients ask. -/
structure RelayLaws (cfg : RelayConfig) (h : History) : Prop where
  /-- The ids held are contiguous and end at the newest. -/
  contiguous : ∀ c, ∃ lo, (h.relay.channels c).items.map Item.id
        = List.range' lo (h.relay.channels c).items.length
      ∧ lo + (h.relay.channels c).items.length = (h.relay.channels c).nextId
  /-- Ids are given out in order: 1, 2, 3, ... -/
  inOrder : ∀ c, (h.own c).map Store.id = List.range' 1 (h.own c).length
  bytes : ∀ c, (h.relay.channels c).bytes = payloadBytes (h.relay.channels c).items
  withinItems : ∀ c, (h.relay.channels c).items.length ≤ cfg.maxItems
  withinBytes : ∀ c, (h.relay.channels c).bytes ≤ cfg.maxBytes
  /-- A number is stored at most once. -/
  atMostOnce : ∀ c, ((h.own c).map fun st => (st.key, st.seq)).Nodup
  /-- What is held was stored, with these bytes. -/
  held : ∀ c, ∀ item ∈ (h.relay.channels c).items, ∃ st ∈ h.own c,
    st.id = item.id ∧ st.payload = item.payload ∧ st.key.producer = item.producer
  /-- An item goes away only by an acknowledgement of the current consumer. -/
  stays : ∀ c, ∀ item ∈ (h.relay.channels c).items, ∀ q,
    item ∉ ((h.relay.serve q).channels c).items → ∃ token take, q = .take c token take
      ∧ (h.relay.channels c).current = some token ∧ item.id ≤ take.ackThrough
  /-- A TAKE answers a prefix of what is then held after its cursor, and
  something if there is something. -/
  answers : ∀ c token take out r', h.relay.serveTake c token take = .ok (out, r') →
    out.1 <+: ((r'.channels c).items.filter fun item => decide (item.id > take.after))
      ∧ ((∃ item ∈ (r'.channels c).items, take.after < item.id) → out.1 ≠ [])
  /-- A connection that a newer one superseded is refused, and its request
  changes nothing. -/
  superseded : ∀ c old new older later newer,
    h.attached = older ++ (c, old) :: (later ++ (c, new) :: newer) →
    ∀ take, h.relay.serveTake c old take = .error (Relay.supersededText c)
      ∧ h.relay.serve (.take c old take) = h.relay

variable {cfg : RelayConfig}

section

variable {h : History} (hok : HistoryOk cfg h)
include hok

/-- Only a TAKE of the current consumer deletes. -/
theorem HistoryOk.stays {c : Nat} {item : Item} {q : Request}
    (hmem : item ∈ (h.relay.channels c).items)
    (hgone : item ∉ ((h.relay.serve q).channels c).items) : ∃ token take, q = .take c token take
      ∧ (h.relay.channels c).current = some token ∧ item.id ≤ take.ackThrough := by
  -- A channel a request does not name is as it was.
  have hsame : ∀ {d : Nat} {ch : Channel}, (d = c → item ∈ ch.items) →
      item ∈ ((h.relay.setChannel d ch).channels c).items := by
    intro d ch hd
    by_cases heq : c = d
    · subst heq
      rw [channels_setChannel_self]
      exact hd rfl
    · rw [channels_setChannel _ _ _ heq]
      exact hmem
  have hstep := serve_step h.relay q
  generalize h.relay.serve q = r' at hstep hgone
  generalize h.relay.stored q = stores at hstep
  generalize h.relay.attaches q = attached at hstep
  cases hstep with
  | refused => exact absurd hmem hgone
  | attach | duplicate | full => exact absurd (hsame fun h => h ▸ hmem) hgone
  | stored =>
    refine absurd (hsame fun h => ?_) hgone
    subst h
    exact mem_append_left _ hmem
  | @taken channel token take cur =>
    by_cases hc : c = channel
    · subst hc
      refine ⟨token, take, rfl, cur, ?_⟩
      rw [channels_setChannel_self, (hok.channels c).ok.mem_acknowledge] at hgone
      exact not_lt.1 fun hlt => hgone ⟨hmem, hlt⟩
    · exact absurd (hsame fun h => absurd h.symm hc) hgone

theorem HistoryOk.not_current {c old new : Nat} {older later newer : List (Nat × Nat)}
    (heq : h.attached = older ++ (c, old) :: (later ++ (c, new) :: newer)) :
    (h.relay.channels c).current ≠ some old := by
  intro hcur
  have hlt : old < new := by
    have hordered := hok.ordered
    rw [heq, map_append, map_cons, map_append, map_cons, pairwise_append, pairwise_cons] at hordered
    exact hordered.2.1.1 new mem_append_cons_self
  have hmem : new ∈ h.tokens c := by
    refine mem_map.2 ⟨(c, new), mem_filter.2 ⟨?_, ?_⟩, rfl⟩
    · rw [heq]
      simp
    · exact decide_eq_true rfl
  exact absurd ((hok.channels c).newest old hcur new hmem) (not_le.2 hlt)

theorem HistoryOk.laws : RelayLaws cfg h where
  contiguous c := (hok.channels c).ok.ids
  inOrder c := (hok.channels c).numbered.1
  bytes c := (hok.channels c).ok.bytes
  withinItems c := (hok.channels c).ok.maxItems
  withinBytes c := (hok.channels c).ok.maxBytes
  atMostOnce c := (hok.channels c).once
  held c := (hok.channels c).held
  stays _ _ hmem _ hgone := hok.stays hmem hgone
  answers c token take out r' htake := by
    obtain ⟨-, -, hout, rfl⟩ := take_ok htake
    rw [hout, channels_setChannel_self]
    refine ⟨answer_isPrefix _ _ _, ?_⟩
    rintro ⟨item, hmem, hafter⟩
    exact answer_ne_nil (Nat.le_max_right _ _) hmem hafter
  superseded c old new older later newer heq take := by
    have hrefused : h.relay.serveTake c old take = .error (Relay.supersededText c) :=
      take_superseded (hok.not_current heq) _ _ _ _
    refine ⟨hrefused, ?_⟩
    dsimp only [Relay.serve]
    rw [hrefused]

end

end Yeto.SampleRelay
