/-
No item is lost between the relay and the buffer.

What the relay has stored and no longer holds must be `Handled`: malformed, or
in the local buffer. So an acknowledgement must be `Through` (everything stored
up to it is handled), and a batch `Covered` (everything stored up to one of its
items is handled or in the batch itself).

The cursor moves past a batch when it arrives. When an item in the middle
raises, the next TAKE starts behind the rest of the batch, and the first item
settled from THAT answer acknowledges it. `settledTakes`: a TAKE goes out only
when nothing taken is unsettled.
-/
import Yeto.SampleRelay.Pump
import Yeto.SampleRelay.Proofs.History
import Mathlib.Data.List.Nodup

namespace Yeto.SampleRelay

open Lib SampleBuffer List PumpWorld

variable {item : Item} {n : Nat} {payload : Payload} {q : Request} {id : SampleId} {st : Store}
  {fault : Fault} {channel epoch : Nat} {ref : Ref}

/-- An item is rejected as malformed, or its sample id is in the buffer. -/
def Handled (codec : Codec) (b : Buffer) (payload : Payload) : Prop :=
  codec.decode payload = .malformed ∨ ∃ header bytes, codec.decode payload = .ok (header, bytes)
      ∧ (codec.cut header bytes = .malformed ∨ ∃ id, header.sampleId = some id ∧ id ∈ b.ids)

def Relay.holds (r : Relay) (channel id : Nat) : Prop :=
  ∃ item ∈ (r.channels channel).items, item.id = id

/-- Whatever was stored in the channel is still there or handled. -/
def NoLoss (codec : Codec) (w : PumpWorld) : Prop :=
  ∀ st ∈ w.history.own w.channel, w.history.relay.holds w.channel st.id
      ∨ Handled codec w.buffer st.payload

/-- A TAKE goes out only when nothing taken is unsettled. -/
def settledTakes (w : PumpWorld) : PumpOp → Bool
  | .send _ _ => decide (w.consumer.after ≤ w.consumer.acked)
  | _ => true

variable {p : RelayPump}

section Settle

variable {codec : Codec} {b b' : Buffer}

theorem Handled.mono (h : Handled codec b payload) (hids : ∀ id ∈ b.ids, id ∈ b'.ids) :
    Handled codec b' payload := by
  rcases h with h | ⟨header, bytes, hdec, hcut | ⟨id, hid, hmem⟩⟩
  · exact .inl h
  · exact .inr ⟨header, bytes, hdec, .inl hcut⟩
  · exact .inr ⟨header, bytes, hdec, .inr ⟨id, hid, hids id hmem⟩⟩

theorem ids_appendWith {entry : Entry} :
    (∀ id ∈ b.ids, id ∈ (b.appendWith entry fault).1.ids) ∧ ((b.appendWith entry fault).2 = true →
        entry.sampleId ∈ (b.appendWith entry fault).1.ids) := by
  rcases b.appendWith_cases entry fault with ⟨heq, hfalse⟩ | heq
  · rw [heq, hfalse]
    exact ⟨fun _ h => h, nofun⟩
  · rw [heq]
    unfold Buffer.ids
    rw [map_append]
    exact ⟨fun _ h => mem_append_left _ h, fun _ => mem_append_cons_self⟩

theorem ids_writePayload {data : Bytes} (h : b.writePayload id data = .ok (ref, b')) :
    b'.ids = b.ids := by
  obtain ⟨-, ⟨⟩⟩ := of_then_error h
  rfl

/-- What settling an item does: the pump knows only ids of the buffer, the
buffer loses none, and an item that is done is handled. -/
structure SettleOk (codec : Codec) (b : Buffer) (payload : Payload) (out : Settled) : Prop where
  known : ∀ id ∈ out.pump.known, id ∈ out.buffer.ids
  ids : ∀ id ∈ b.ids, id ∈ out.buffer.ids
  handled : out.done = true → Handled codec out.buffer payload

theorem append_ok {header : Header} {bytes : Bytes} (hknown : ∀ id ∈ p.known, id ∈ b'.ids)
    (hids : ∀ id ∈ b.ids, id ∈ b'.ids) (hdec : codec.decode payload = .ok (header, bytes))
    (hid : header.sampleId = some id) :
    SettleOk codec b payload (p.append b' header id ref fault) := by
  unfold RelayPump.append
  split
  · next version tokens _ _ =>
    obtain ⟨hmono, hin⟩ := ids_appendWith
    dsimp only
    split
    · next hdone =>
      refine ⟨fun x hx => ?_, fun x hx => hmono x (hids x hx), fun _ => ?_⟩
      · rcases mem_snoc.1 hx with hx | rfl
        · exact hmono x (hknown x hx)
        · exact hin hdone
      · exact .inr ⟨header, bytes, hdec, .inr ⟨id, hid, hin hdone⟩⟩
    · exact ⟨fun x hx => hmono x (hknown x hx), fun x hx => hmono x (hids x hx), nofun⟩
  · exact ⟨hknown, hids, nofun⟩

theorem settle_ok (codec : Codec) (item : Item) (fault : Fault)
    (hknown : ∀ id ∈ p.known, id ∈ b.ids) :
    SettleOk codec b item.payload (p.settle codec b item fault) := by
  have hself : ∀ id ∈ b.ids, id ∈ b.ids := fun _ h => h
  -- The step raises with nothing done.
  have hraise : SettleOk codec b item.payload ⟨p, b, false⟩ := ⟨hknown, hself, nofun⟩
  unfold RelayPump.settle
  split
  · exact hraise
  · next hdec => exact ⟨hknown, hself, fun _ => .inl hdec⟩
  · next header payload hdec =>
    split
    · exact hraise
    next id hid =>
    split
    · next hmem =>
      exact ⟨hknown, hself, fun _ => .inr ⟨header, payload, hdec, .inr ⟨id, hid, hknown id hmem⟩⟩⟩
    · split
      · exact hraise
      · next hcut =>
        exact ⟨hknown, hself, fun _ =>
          .inr ⟨header, payload, hdec, .inl hcut⟩⟩
      · split
        · exact hraise
        · next hwrite =>
          have hids := ids_writePayload hwrite
          exact ⟨fun x hx => hids ▸ hknown x hx, fun x hx => hids ▸ hx, nofun⟩
        · next _ ref b' hwrite _ _ =>
          have hids := ids_writePayload hwrite
          exact append_ok (fun x hx => hids ▸ hknown x hx) (fun x hx => hids ▸ hx) hdec hid
        · split
          · exact append_ok hknown hself hdec hid
          · exact hraise

end Settle

section Requests

variable {cfg : RelayConfig} {h : History} {c : Nat}

/-- What a channel has stored after a request: what it had, and at most one
item more, which it holds. -/
theorem own_serve (hst : st ∈ (h.serve q).own c) :
    st ∈ h.own c ∨ st.id = (h.relay.channels c).nextId ∧ (h.serve q).relay.holds c st.id := by
  obtain ⟨hmem, hc⟩ := mem_filter.1 hst
  have hc := of_decide_eq_true hc
  rcases mem_append.1 hmem with hmem | hmem
  · exact .inl (mem_filter.2 ⟨hmem, decide_eq_true hc⟩)
  · refine .inr ?_
    show _ ∧ (h.relay.serve q).holds c st.id
    have hstep := serve_step h.relay q
    generalize h.relay.serve q = r' at hstep ⊢
    generalize h.relay.attaches q = attached at hstep
    generalize h.relay.stored q = stores at hstep hmem
    cases hstep with
    | @stored channel key seq payload =>
      cases mem_singleton.1 hmem
      cases hc
      refine ⟨rfl, ⟨_, key.producer, payload⟩, ?_, rfl⟩
      rw [channels_setChannel_self]
      exact mem_append_cons_self
    | _ => cases hmem

theorem nextId_le_serve : (h.relay.channels c).nextId ≤ ((h.serve q).relay.channels c).nextId := by
  -- A request sets one channel, whose next id does not go down.
  have hset : ∀ {d : Nat} {ch : Channel}, (h.relay.channels d).nextId ≤ ch.nextId →
      (h.relay.channels c).nextId ≤ ((h.relay.setChannel d ch).channels c).nextId := by
    intro d ch hle
    by_cases hd : c = d
    · subst hd
      rw [channels_setChannel_self]
      exact hle
    · rw [channels_setChannel _ _ _ hd]
  show _ ≤ ((h.relay.serve q).channels c).nextId
  have hstep := serve_step h.relay q
  generalize h.relay.serve q = r' at hstep ⊢
  generalize h.relay.attaches q = attached at hstep
  generalize h.relay.stored q = stores at hstep
  cases hstep with
  | refused => exact le_rfl
  | attach channel => exact hset (d := channel) le_rfl
  | stored => exact hset (Nat.le_succ _)
  | duplicate | full | taken => exact hset le_rfl

theorem HistoryOk.id_bounds (hok : HistoryOk cfg h) (hst : st ∈ h.own c) :
    1 ≤ st.id ∧ st.id < (h.relay.channels c).nextId := by
  obtain ⟨hids, hnext⟩ := (hok.channels c).numbered
  have hmem : st.id ∈ List.range' 1 (h.own c).length := hids ▸ mem_map_of_mem hst
  obtain ⟨h1, h2⟩ := mem_range'_1.1 hmem
  exact ⟨h1, by omega⟩

theorem HistoryOk.nextId_pos (hok : HistoryOk cfg h) : 0 < (h.relay.channels c).nextId := by
  have := (hok.channels c).numbered.2
  omega

theorem HistoryOk.store_unique (hok : HistoryOk cfg h) {st' : Store} (hst : st ∈ h.own c)
    (hst' : st' ∈ h.own c) (heq : st.id = st'.id) : st = st' := by
  refine inj_on_of_nodup_map ?_ hst hst' heq
  rw [(hok.channels c).numbered.1]
  exact nodup_range'

theorem ChannelOk.sorted {ch : Channel} (hok : ChannelOk cfg ch) :
    ch.items.Pairwise fun a b => a.id < b.id := by
  obtain ⟨lo, hids, -⟩ := hok.ids
  refine pairwise_map.1 ?_
  rw [hids]
  exact pairwise_lt_range'

end Requests

variable {w : PumpWorld}

section Invariant

variable {codec : Codec} {cfg : RelayConfig}

/-- Everything stored in the channel up to `n` is handled. -/
def Through (codec : Codec) (h : History) (c : Nat) (b : Buffer) (n : Nat) : Prop :=
  n < (h.relay.channels c).nextId ∧ ∀ st ∈ h.own c, st.id ≤ n → Handled codec b st.payload

/-- Everything stored up to one of these items is handled or among them. -/
structure Covered (codec : Codec) (h : History) (c : Nat) (b : Buffer)
    (items : List Item) : Prop where
  sorted : items.Pairwise fun x y => x.id < y.id
  below : ∀ item ∈ items, item.id < (h.relay.channels c).nextId
  covers : ∀ item ∈ items, ∀ st ∈ h.own c, st.id ≤ item.id → Handled codec b st.payload
      ∨ ∃ x ∈ items, x.id = st.id ∧ x.payload = st.payload

structure PumpSound (codec : Codec) (cfg : RelayConfig) (w : PumpWorld) : Prop where
  history : HistoryOk cfg w.history
  known : ∀ id ∈ w.pump.known, id ∈ w.buffer.ids
  noLoss : NoLoss codec w
  acked : Through codec w.history w.channel w.buffer w.consumer.acked
  stale : ∀ q ∈ w.stale, Through codec w.history w.channel w.buffer q.2.ackThrough
  asked : ∀ token q, w.link = .asked token q →
    Through codec w.history w.channel w.buffer q.ackThrough ∧ q.after ≤ q.ackThrough
  answered : ∀ token items, w.link = .answered token (.ok items) →
    Covered codec w.history w.channel w.buffer items
  batch : Covered codec w.history w.channel w.buffer w.batch

variable {h : History} {c : Nat} {b b' : Buffer}

theorem Through.serve (ht : Through codec h c b n) (q : Request) :
    Through codec (h.serve q) c b n := by
  refine ⟨lt_of_lt_of_le ht.1 nextId_le_serve, fun st hst hle => ?_⟩
  rcases own_serve hst with hst | ⟨hid, -⟩
  · exact ht.2 st hst hle
  · have := ht.1
    omega

theorem Through.grow (ht : Through codec h c b n) (hids : ∀ id ∈ b.ids, id ∈ b'.ids) :
    Through codec h c b' n := ⟨ht.1, fun st hst hle => (ht.2 st hst hle).mono hids⟩

theorem through_zero (hok : HistoryOk cfg h) (c : Nat) (b : Buffer) : Through codec h c b 0 := by
  refine ⟨hok.nextId_pos, fun st hst hle => ?_⟩
  have := (hok.id_bounds hst).1
  omega

theorem covered_nil : Covered codec h c b [] := ⟨List.Pairwise.nil, nofun, nofun⟩

variable {items : List Item}

theorem Covered.serve (hc : Covered codec h c b items)
    (q : Request) : Covered codec (h.serve q) c b items where
  sorted := hc.sorted
  below item hmem := lt_of_lt_of_le (hc.below item hmem) nextId_le_serve
  covers item hmem st hst hle := by
    rcases own_serve hst with hst | ⟨hid, -⟩
    · exact hc.covers item hmem st hst hle
    · have := hc.below item hmem
      omega

theorem Covered.grow (hc : Covered codec h c b items)
    (hids : ∀ id ∈ b.ids, id ∈ b'.ids) : Covered codec h c b' items :=
  { hc with
  covers item hmem st hst hle := (hc.covers item hmem st hst hle).imp_left fun hh => hh.mono hids }

/-- The first item of a batch is settled: what was stored up to it is
handled, and the rest of the batch is covered. -/
theorem Covered.settle {rest : List Item} (hc : Covered codec h c b (item :: rest))
    (ht : Through codec h c b n) (hids : ∀ id ∈ b.ids, id ∈ b'.ids)
    (hdone : Handled codec b' item.payload) :
    Through codec h c b' (max n item.id) ∧ Covered codec h c b' rest := by
  obtain ⟨hlater, hsorted⟩ := pairwise_cons.1 hc.sorted
  refine ⟨⟨max_lt ht.1 (hc.below item (mem_cons_self ..)), fun st hst hle => ?_⟩, hsorted,
    fun x hx => hc.below x (mem_cons_of_mem _ hx), fun x hx st hst hle => ?_⟩
  · rcases lt_or_ge n st.id with hlt | hge
    · have hle' : st.id ≤ item.id := (le_max_iff.1 hle).resolve_left (not_le.2 hlt)
      rcases hc.covers item (mem_cons_self ..) st hst hle' with
        hh | ⟨x, hx, hid, hpay⟩
      · exact hh.mono hids
      · rcases mem_cons.1 hx with rfl | hx
        · exact hpay ▸ hdone
        · have := hlater x hx
          omega
    · exact (ht.2 st hst hge).mono hids
  · rcases hc.covers x (mem_cons_of_mem _ hx) st hst hle with
      hh | ⟨y, hy, hid, hpay⟩
    · exact .inl (hh.mono hids)
    · rcases mem_cons.1 hy with rfl | hy
      · exact .inl (hpay ▸ hdone)
      · exact .inr ⟨y, hy, hid, hpay⟩

theorem noLoss_serve (hok : HistoryOk cfg w.history) (hno : NoLoss codec w)
    (hq : ∀ token take, q = .take w.channel token take →
      Through codec w.history w.channel w.buffer take.ackThrough) :
    NoLoss codec { w with history := w.history.serve q } := by
  intro st hst
  rcases own_serve hst with hst | ⟨-, hheld⟩
  · rcases hno st hst with ⟨item, hmem, hid⟩ | hh
    · by_cases hstays : item ∈ ((w.history.relay.serve q).channels w.channel).items
      · exact .inl ⟨item, hstays, hid⟩
      · obtain ⟨token, take, heq, -, hle⟩ := hok.stays hmem hstays
        exact .inr ((hq token take heq).2 st hst (hid ▸ hle))
    · exact .inr hh
  · exact .inl hheld

theorem mem_prefix_of_le {out : List Item} {x : Item} (hpre : out <+: items)
    (hsorted : items.Pairwise fun a b => a.id < b.id) (hitem : item ∈ out) (hx : x ∈ items)
    (hle : x.id ≤ item.id) : x ∈ out := by
  obtain ⟨rest, rfl⟩ := hpre
  rcases mem_append.1 hx with hx | hx
  · exact hx
  · have := (pairwise_append.1 hsorted).2.2 item hitem x hx
    omega

/-- The answer of a TAKE whose cursor is not past its acknowledgement
covers what it passes over. -/
theorem covered_answer (hw : PumpSound codec cfg w) {token : Nat} {q : TakeRequest}
    (ht : Through codec w.history w.channel w.buffer q.ackThrough)
    (hafter : q.after ≤ q.ackThrough) (hans : w.answer token q = .ok items) :
    Covered codec (w.history.serve (.take w.channel token q)) w.channel w.buffer items := by
  have hok' := hw.history.serve (.take w.channel token q)
  have hno' := noLoss_serve hw.history hw.noLoss
    (q := .take w.channel token q) (by rintro _ _ ⟨⟩; exact ht)
  unfold answer at hans
  cases htake : w.history.relay.serveTake w.channel token q with
  | error text =>
    rw [htake] at hans
    cases hans
  | ok out =>
    obtain ⟨out, r'⟩ := out
    rw [htake] at hans
    cases hans
    have hserve : (w.history.serve (.take w.channel token q)).relay = r' := by
      show w.history.relay.serve (.take w.channel token q) = r'
      dsimp only [Relay.serve]
      rw [htake]
    obtain ⟨hpre, -⟩ := hw.history.laws.answers _ _ _ _ _ htake
    rw [← hserve] at hpre
    have hsorted := (hok'.channels w.channel).ok.sorted
    have hsorted' := hsorted.sublist (filter_sublist (p := fun item => decide (item.id > q.after)))
    refine ⟨hsorted'.sublist hpre.sublist, fun item hmem => ?_, fun item hmem st hst hle => ?_⟩
    · exact (hok'.channels w.channel).ok.id_lt (mem_filter.1 (hpre.subset hmem)).1
    · rcases lt_or_ge q.ackThrough st.id with hlt | hge
      · rcases hno' st hst with ⟨x, hx, hid⟩ | hh
        · obtain ⟨st', hst', hid', hpay, -⟩ := (hok'.channels w.channel).held x hx
          cases hok'.store_unique hst' hst (hid'.trans hid)
          refine .inr ⟨x, ?_, hid, hpay.symm⟩
          refine mem_prefix_of_le hpre hsorted' hmem
            (mem_filter.2 ⟨hx, decide_eq_true ?_⟩) (hid ▸ hle)
          omega
        · exact .inl hh
      · exact .inl ((ht.serve _).2 st hst hge)

end Invariant

section Steps

variable {codec : Codec} {cfg : RelayConfig} {w' : PumpWorld}

theorem pumpSound_new : PumpSound codec cfg (.new cfg epoch channel) where
  history := historyOk_new
  known := nofun
  noLoss := nofun
  acked := through_zero historyOk_new channel .empty
  stale := nofun
  asked := nofun
  answered := nofun
  batch := covered_nil

theorem PumpSound.serve (h : PumpSound codec cfg w)
    (hq : ∀ token take, q = .take w.channel token take →
      Through codec w.history w.channel w.buffer take.ackThrough) :
    PumpSound codec cfg { w with history := w.history.serve q } where
  history := h.history.serve q
  known := h.known
  noLoss := noLoss_serve h.history h.noLoss hq
  acked := h.acked.serve q
  stale r hr := (h.stale r hr).serve q
  asked token r hlink := ⟨(h.asked token r hlink).1.serve q, (h.asked token r hlink).2⟩
  answered token items hlink := (h.answered token items hlink).serve q
  batch := h.batch.serve q

theorem Through.connected {n : RelayConsumer} {hist : History} {c : Nat}
    {b : Buffer} (hok : HistoryOk cfg hist) (ht : Through codec hist c b n.acked) (epoch : Nat) :
    Through codec hist c b (n.connected epoch).acked := by
  unfold RelayConsumer.connected
  split
  · exact ht
  · split
    · exact through_zero hok c b
    · exact ht

theorem acked_received {c : RelayConsumer} {items : List Item} :
    (c.received items).acked = c.acked := by
  unfold RelayConsumer.received
  split <;> rfl

theorem PumpSound.leftover (h : PumpSound codec cfg w) {q : Nat × TakeRequest}
    (hq : q ∈ w.stale ++ w.link.leftover) :
    Through codec w.history w.channel w.buffer q.2.ackThrough := by
  rcases mem_append.1 hq with hq | hq
  · exact h.stale q hq
  · unfold TakeLink.leftover at hq
    split at hq
    · next token r hlink =>
      cases mem_singleton.1 hq
      exact (h.asked token r hlink).1
    · cases hq

theorem PumpSound.grow (h : PumpSound codec cfg w) {b : Buffer}
    (hknown : ∀ id ∈ p.known, id ∈ b.ids) (hids : ∀ id ∈ w.buffer.ids, id ∈ b.ids) :
    PumpSound codec cfg { w with pump := p, buffer := b } where
  history := h.history
  known := hknown
  noLoss st hst := (h.noLoss st hst).imp_right fun hh => hh.mono hids
  acked := h.acked.grow hids
  stale q hq := (h.stale q hq).grow hids
  asked token q hlink := ⟨(h.asked token q hlink).1.grow hids, (h.asked token q hlink).2⟩
  answered token items hlink := (h.answered token items hlink).grow hids
  batch := h.batch.grow hids

/-- Every step loses nothing, as long as a TAKE goes out only when nothing
taken is unsettled. -/
theorem PumpSound.step (h : PumpSound codec cfg w) {op : PumpOp} (hset : settledTakes w op = true)
    (hexec : w.exec codec op = some w') : PumpSound codec cfg w' := by
  cases op with dsimp only [exec] at hexec
  | serve q =>
    obtain ⟨hq, rfl⟩ := of_guard hexec
    refine h.serve fun token take heq => ?_
    subst heq
    exact absurd rfl (of_decide_eq_true hq)
  | connect welcome =>
    split at hexec
    · have hserved := h.serve (q := .attach w.channel 0 0) nofun
      split at hexec
      · cases hexec
        exact ⟨hserved.history, hserved.known, hserved.noLoss,
          hserved.acked.connected hserved.history _, hserved.stale, nofun, nofun, hserved.batch⟩
      · cases hexec
        exact hserved
    · cases hexec
  | send maxItems maxBytes =>
    split at hexec <;> cases hexec
    refine { h with asked := ?_, answered := nofun }
    rintro _ _ ⟨⟩
    exact ⟨h.acked, of_decide_eq_true hset⟩
  | handle =>
    split at hexec <;> cases hexec
    next token q hlink =>
    obtain ⟨ht, hafter⟩ := h.asked token q hlink
    have hserved := h.serve (q := .take w.channel token q) (by rintro _ _ ⟨⟩; exact ht)
    refine { hserved with asked := nofun, answered := ?_ }
    intro t items heq
    obtain ⟨-, hans⟩ := TakeLink.answered.inj heq
    exact covered_answer h ht hafter hans
  | receive =>
    split at hexec <;> cases hexec
    · next token items hlink =>
      refine ⟨h.history, h.known, h.noLoss, ?_, h.stale, nofun, nofun, h.answered token items hlink⟩
      show Through codec _ _ _ (w.consumer.received items).acked
      rw [acked_received]
      exact h.acked
    · exact { h with asked := nofun, answered := nofun }
  | breakLink =>
    cases hexec
    exact ⟨h.history, h.known, h.noLoss, h.acked, fun _ hq => h.leftover hq, nofun, nofun, h.batch⟩
  | handleStale i =>
    split at hexec <;> cases hexec
    next token q hq =>
    have hserved := h.serve (q := .take w.channel token q) (by
      rintro _ _ ⟨⟩
      exact h.stale _ (mem_of_getElem? hq))
    exact { hserved with
      stale := fun r hr => hserved.stale r (mem_of_mem_eraseIdx hr) }
  | dropStale i =>
    cases hexec
    exact { h with
      stale := fun r hr => h.stale r (mem_of_mem_eraseIdx hr) }
  | item fault =>
    split at hexec
    · cases hexec
    next item rest hbatch =>
    have hout := settle_ok codec item fault h.known
    have hgrown := h.grow hout.known hout.ids
    split at hexec
    · next hdone =>
      cases hexec
      have hbatch' := h.batch
      rw [hbatch] at hbatch'
      obtain ⟨hack, hrest⟩ := hbatch'.settle h.acked hout.ids (hout.handled hdone)
      exact { hgrown with acked := hack, batch := hrest }
    · cases hexec
      exact { hgrown with batch := covered_nil }
  | restart =>
    cases hexec
    exact ⟨h.history, fun _ hid => hid, h.noLoss,
      through_zero h.history w.channel w.buffer, fun _ hq => h.leftover hq,
      nofun, nofun, covered_nil⟩

end Steps

theorem pumpSound_reachable {codec : Codec} {cfg : RelayConfig}
    (h : (pumpRuns codec cfg epoch channel settledTakes).Reachable w) : PumpSound codec cfg w :=
  System.guarded_invariant pumpSound_new (fun _ _ _ hw hset hexec => hw.step hset hexec) h

/-- Whatever the relay no longer holds, the pump appended, found in the
local buffer, or rejected — in every run where a TAKE goes out only when
nothing taken is unsettled. -/
theorem relay_item_deleted_settled {codec : Codec} {cfg : RelayConfig}
    {epoch channel : Nat} {w : PumpWorld}
    (h : (pumpRuns codec cfg epoch channel settledTakes).Reachable w) :
    ∀ st ∈ w.history.own w.channel, ¬ w.history.relay.holds w.channel st.id →
      Handled codec w.buffer st.payload :=
  fun st hst hgone => ((pumpSound_reachable h).noLoss st hst).resolve_left hgone

/-- Items whose one byte is their sample id. -/
def byteCodec : Codec where
  decode payload := match payload with
    | [b] => .ok (⟨some [Char.ofNat b.toNat], some 0, some 1⟩, payload)
    | _ => .malformed
  cut _ bytes := .ok bytes

def roomyConfig : RelayConfig := ⟨8, 64, 8⟩

/-- Two items are taken and the append of the first one fails; a third item
comes, is taken on the same connection, settled and acknowledged. -/
def droppedBatch : List PumpOp :=
  [.serve (.put 3 ⟨8, 80, 800⟩ 1 [65]), .serve (.put 3 ⟨8, 80, 800⟩ 2 [66]),
    .connect true, .send 8 64, .handle, .receive, .item .append,
    .serve (.put 3 ⟨8, 80, 800⟩ 3 [67]),
    .send 8 64, .handle, .receive, .item .none, .send 8 64, .handle]

/-- The relay deletes two items that never reached the buffer. -/
theorem unsettled_batch_deleted : roomyConfig.validate = .ok ()
    ∧ ∃ w, (pumpRuns byteCodec roomyConfig 9 3 fun _ _ => true).Reachable w ∧ w.buffer.ids = [['C']]
      ∧ ∃ st ∈ w.history.own w.channel, st.payload = [65] ∧ ¬ w.history.relay.holds w.channel st.id
        ∧ ¬ Handled byteCodec w.buffer st.payload := by
  refine ⟨rfl, ?_⟩
  obtain ⟨w, hrun⟩ : ∃ w, System.play (fun _ _ => true)
      (exec byteCodec) (.new roomyConfig 9 3) droppedBatch = some w := ⟨_, rfl⟩
  refine ⟨w, System.reachable_play hrun, ?_, ⟨3, ⟨8, 80, 800⟩, 1, 1, [65]⟩, ?_, rfl, ?_, ?_⟩
  · cases hrun
    rfl
  · cases hrun
    decide
  · cases hrun
    rintro ⟨item, hmem, -⟩
    cases hmem
  · have hids : w.buffer.ids = [['C']] := by
      cases hrun
      rfl
    rintro (h | ⟨header, bytes, hdec, h | ⟨id, hid, hmem⟩⟩)
    · cases h
    · cases h
    · cases hdec
      cases hid
      rw [hids] at hmem
      exact absurd hmem (by decide)

/-- The failed append is followed by a broken connection: the batch is
taken again, and both items arrive before they are deleted. -/
def retakenBatch : List PumpOp :=
  [.serve (.put 3 ⟨8, 80, 800⟩ 1 [65]), .serve (.put 3 ⟨8, 80, 800⟩ 2 [66]),
    .connect true, .send 8 64, .handle, .receive, .item .append, .breakLink,
    .connect true, .send 8 64, .handle, .receive, .item .none, .item .none, .send 8 64, .handle]

theorem relay_item_deleted_settled_retaken :
    ∃ w, (pumpRuns byteCodec roomyConfig 9 3 settledTakes).Reachable w
      ∧ w.buffer.ids = [['A'], ['B']] ∧ ¬ w.history.relay.holds w.channel 1
      ∧ ∀ st ∈ w.history.own w.channel, ¬ w.history.relay.holds w.channel st.id →
        Handled byteCodec w.buffer st.payload := by
  obtain ⟨w, hrun⟩ : ∃ w, System.play settledTakes
      (exec byteCodec) (.new roomyConfig 9 3) retakenBatch = some w := ⟨_, rfl⟩
  have hreach : (pumpRuns byteCodec roomyConfig 9 3 settledTakes).Reachable w :=
    System.reachable_play hrun
  refine ⟨w, hreach, ?_, ?_, relay_item_deleted_settled hreach⟩
  · cases hrun
    rfl
  · cases hrun
    rintro ⟨item, hmem, -⟩
    cases hmem

end Yeto.SampleRelay
