/-
What a channel keeps, request by request. The ids held are always a run of
numbers that ends just below `nextId` (`ChannelOk.ids`), and everything about a
TAKE follows from its two loops: `popAcked` drops the acknowledged front,
`collect` answers a prefix of what lies after the cursor.
-/
import Yeto.SampleRelay.Model
import Yeto.Lib.Guards
import Yeto.Lib.System
import Mathlib.Algebra.Order.BigOperators.Group.List
import Mathlib.Algebra.Order.Group.Nat

namespace Yeto.SampleRelay

open Lib List

variable {after lo token : Nat} {payload : Payload}

def payloadBytes (items : List Item) : Nat := (items.map fun item => item.payload.length).sum

variable {item : Item}

section Loops

variable {ack maxItems maxBytes : Nat} {items : List Item}

theorem popAcked_items {bytes : Nat} (acked : Nat) : (popAcked ack items bytes acked).1
      = items.dropWhile fun item => decide (item.id ≤ ack) := by
  induction items generalizing bytes acked with
  | nil => rfl
  | cons front rest ih =>
    unfold popAcked
    split
    · next h =>
      rw [dropWhile_cons_of_neg]
      simpa using h
    · next h => rw [dropWhile_cons_of_pos (by simpa using not_lt.1 h), ih]

theorem popAcked_bytes {bytes : Nat} (acked : Nat) (h : bytes = payloadBytes items) :
    (popAcked ack items bytes acked).2.1 = payloadBytes (popAcked ack items bytes acked).1 := by
  induction items generalizing bytes acked with
  | nil => exact h
  | cons front rest ih =>
    unfold popAcked
    split
    · exact h
    · refine ih (acked + 1) ?_
      rw [h]
      unfold payloadBytes
      rw [map_cons, sum_cons, Nat.add_sub_cancel_left]

theorem ids_dropWhile (p : Item → Bool) (h : items.map Item.id = List.range' lo items.length) :
    ∃ lo', (items.dropWhile p).map Item.id = List.range' lo' (items.dropWhile p).length
      ∧ lo' + (items.dropWhile p).length = lo + items.length := by
  induction items generalizing lo with
  | nil => exact ⟨lo, rfl, rfl⟩
  | cons front rest ih =>
    cases hp : p front with
    | false =>
      rw [dropWhile_cons_of_neg (by rw [hp]; decide)]
      exact ⟨lo, h, rfl⟩
    | true =>
      rw [dropWhile_cons_of_pos hp]
      obtain ⟨lo', h1, h2⟩ := ih (cons.inj h).2
      refine ⟨lo', h1, ?_⟩
      rw [h2, length_cons]
      omega

theorem mem_dropWhile_iff (h : items.map Item.id = List.range' lo items.length) :
    item ∈ items.dropWhile (fun x => decide (x.id ≤ ack)) ↔ item ∈ items ∧ ack < item.id := by
  induction items generalizing lo with
  | nil => simp
  | cons front rest ih =>
    obtain ⟨hfront, hrest⟩ := cons.inj h
    have hlater : ∀ x ∈ rest, front.id < x.id := by
      intro x hx
      have hmem : x.id ∈ range' (lo + 1) rest.length := hrest ▸ mem_map_of_mem hx
      have := (mem_range'_1.1 hmem).1
      omega
    by_cases hle : front.id ≤ ack
    · rw [dropWhile_cons_of_pos (by simpa using hle), ih hrest, mem_cons]
      refine and_congr_left fun hlt => ⟨.inr, ?_⟩
      rintro (rfl | hmem)
      · exact absurd hle (not_le.2 hlt)
      · exact hmem
    · rw [dropWhile_cons_of_neg (by simpa using hle)]
      refine ⟨fun hmem => ⟨hmem, ?_⟩, And.left⟩
      rcases mem_cons.1 hmem with rfl | hmem
      · exact not_le.1 hle
      · exact lt_trans (not_le.1 hle) (hlater item hmem)

theorem collect_isPrefix (count total : Nat) :
    collect maxItems maxBytes items count total <+: items := by
  induction items generalizing count total with
  | nil => exact prefix_refl []
  | cons item rest ih =>
    unfold collect
    split
    · exact nil_prefix
    · split
      · exact nil_prefix
      · exact (prefix_cons_inj item).2 (ih _ _)

theorem collect_ne_nil (h : 1 ≤ maxItems) (hne : items ≠ []) :
    collect maxItems maxBytes items 0 0 ≠ [] := by
  cases items with
  | nil => exact absurd rfl hne
  | cons item rest =>
    unfold collect
    rw [if_neg (not_le.2 h), if_neg fun h => h.1 rfl]
    exact cons_ne_nil _ _

end Loops

structure ChannelOk (cfg : RelayConfig) (ch : Channel) : Prop where
  /-- The ids held are a run of numbers that ends just below the next. -/
  ids : ∃ lo, ch.items.map Item.id = List.range' lo ch.items.length
    ∧ lo + ch.items.length = ch.nextId
  bytes : ch.bytes = payloadBytes ch.items
  maxItems : ch.items.length ≤ cfg.maxItems
  maxBytes : ch.bytes ≤ cfg.maxBytes

section Channels

variable {cfg : RelayConfig} {ch : Channel}

theorem ChannelOk.id_lt (h : ChannelOk cfg ch) (hmem : item ∈ ch.items) : item.id < ch.nextId := by
  obtain ⟨lo, hids, hnext⟩ := h.ids
  have hid : item.id ∈ range' lo ch.items.length := hids ▸ mem_map_of_mem hmem
  have := (mem_range'_1.1 hid).2
  omega

theorem channelOk_new : ChannelOk cfg .new := ⟨⟨1, rfl, rfl⟩, rfl, Nat.zero_le _, Nat.zero_le _⟩

theorem items_acknowledge (ack : Nat) : (ch.acknowledge ack).items
      = ch.items.dropWhile fun item => decide (item.id ≤ ack) := popAcked_items _

section

variable (h : ChannelOk cfg ch)
include h

theorem ChannelOk.duplicate : ChannelOk cfg ch.duplicate := { h with }

theorem ChannelOk.full : ChannelOk cfg ch.full := { h with }

theorem ChannelOk.attach (c : Option Consumer) :
    ChannelOk cfg { ch with consumer := c } := { h with }

theorem ChannelOk.store (key : ProducerKey) (seq : Nat) (hitems : ch.items.length < cfg.maxItems)
    (hbytes : ch.bytes + payload.length ≤ cfg.maxBytes) :
    ChannelOk cfg (ch.store key seq payload) := by
  obtain ⟨lo, hids, hnext⟩ := h.ids
  refine ⟨⟨lo, ?_, ?_⟩, ?_, ?_, hbytes⟩
  · show (ch.items ++ [_]).map Item.id = range' lo (ch.items ++ [_]).length
    rw [map_append, hids, length_append, length_singleton, range'_concat, Nat.one_mul, hnext]
    rfl
  · show lo + (ch.items ++ [_]).length = ch.nextId + 1
    rw [length_append, length_singleton]
    omega
  · show ch.bytes + payload.length = payloadBytes (ch.items ++ [_])
    unfold payloadBytes
    rw [map_append, sum_append, h.bytes]
    rfl
  · show (ch.items ++ [_]).length ≤ _
    rw [length_append]
    exact hitems

theorem ChannelOk.mem_acknowledge {ack : Nat} :
    item ∈ (ch.acknowledge ack).items ↔ item ∈ ch.items ∧ ack < item.id := by
  obtain ⟨lo, hids, -⟩ := h.ids
  rw [items_acknowledge]
  exact mem_dropWhile_iff hids

theorem ChannelOk.acknowledge (ack : Nat) : ChannelOk cfg (ch.acknowledge ack) := by
  obtain ⟨lo, hids, hnext⟩ := h.ids
  have hsuffix := (dropWhile_suffix (fun item : Item => decide (item.id ≤ ack)) (l := ch.items))
  have hbytes : (ch.acknowledge ack).bytes = payloadBytes (ch.acknowledge ack).items :=
    popAcked_bytes _ h.bytes
  refine ⟨?_, hbytes, ?_, ?_⟩
  · obtain ⟨lo', h1, h2⟩ := ids_dropWhile (fun item => decide (item.id ≤ ack)) hids
    rw [items_acknowledge]
    exact ⟨lo', h1, h2.trans hnext⟩
  · rw [items_acknowledge]
    exact le_trans hsuffix.length_le h.maxItems
  · rw [hbytes, items_acknowledge]
    refine le_trans ?_ (h.bytes ▸ h.maxBytes)
    exact (hsuffix.sublist.map _).sum_le_sum fun _ _ => Nat.zero_le _

end

/-- The answer of a TAKE: a prefix of what is held after the cursor, and
not empty when something is. -/
theorem answer_isPrefix (after maxItems maxBytes : Nat) : ch.answer after maxItems maxBytes
      <+: ch.items.filter fun item => decide (item.id > after) := collect_isPrefix 0 0

theorem answer_ne_nil {maxItems maxBytes : Nat} (h : 1 ≤ maxItems) (hmem : item ∈ ch.items)
    (hafter : after < item.id) : ch.answer after maxItems maxBytes ≠ [] := by
  refine collect_ne_nil h (ne_nil_of_mem (a := item) ?_)
  exact mem_filter.2 ⟨hmem, decide_eq_true hafter⟩

end Channels

inductive PutStep (r : Relay) (channel : Nat) (key : ProducerKey) (seq : Nat)
    (payload : Payload) : PutReply → Relay → Prop
  | duplicate {last id : Nat} {reply : PutReply}
      (was : (r.channels channel).producers key = some (last, id))
      (le : seq ≤ last) (num : reply.seq = seq) (status : reply.status = .duplicate) :
      PutStep r channel key seq payload reply (r.setChannel channel (r.channels channel).duplicate)
  | full {reply : PutReply} (new : ∀ last id, (r.channels channel).producers key = some (last, id) →
        last < seq) (num : reply.seq = seq) (status : reply.status = .full) :
      PutStep r channel key seq payload reply (r.setChannel channel (r.channels channel).full)
  | stored {reply : PutReply}
      (new : ∀ last id, (r.channels channel).producers key = some (last, id) → last < seq)
      (items : (r.channels channel).items.length < r.cfg.maxItems)
      (bytes : (r.channels channel).bytes + payload.length ≤ r.cfg.maxBytes)
      (num : reply.seq = seq) (status : reply.status = .stored)
      (id : reply.itemId = (r.channels channel).nextId) : PutStep r channel key seq payload reply
        (r.setChannel channel ((r.channels channel).store key seq payload))

theorem put_step {r r' : Relay} {channel seq : Nat} {key : ProducerKey} {reply : PutReply}
    (h : r.put channel key seq payload = .ok (reply, r')) :
    PutStep r channel key seq payload reply r' := by
  obtain ⟨-, h⟩ := of_then_error h
  obtain ⟨-, h⟩ := of_then_error h
  dsimp only at h
  -- A number above the last one is stored if there is room.
  have hfresh : (∀ last id, (r.channels channel).producers key = some (last, id) → last < seq) →
      (if (r.channels channel).items.length ≥ r.cfg.maxItems
          ∨ (r.channels channel).bytes + payload.length > r.cfg.maxBytes
        then (⟨seq, .full, 0, (r.channels channel).full.depth⟩,
          r.setChannel channel (r.channels channel).full)
        else (⟨seq, .stored, (r.channels channel).nextId,
            ((r.channels channel).store key seq payload).depth⟩,
          r.setChannel channel ((r.channels channel).store key seq payload)))
        = ((reply, r') : PutReply × Relay) → PutStep r channel key seq payload reply r' := by
    intro hnew hres
    split at hres
    · cases hres
      exact .full hnew rfl rfl
    · next hroom =>
      rw [not_or] at hroom
      cases hres
      exact .stored hnew (not_le.1 hroom.1) (not_lt.1 hroom.2) rfl rfl rfl
  split at h
  · next hnone =>
    refine hfresh (fun last id hsome => ?_) (Except.ok.inj h)
    rw [hnone] at hsome
    cases hsome
  · next lastSeq lastId hsome =>
    split at h
    · next hle =>
      cases h
      exact .duplicate hsome hle rfl rfl
    · next hlt =>
      refine hfresh (fun last id hsome' => ?_) (Except.ok.inj h)
      rw [hsome] at hsome'
      cases hsome'
      exact not_le.1 hlt

theorem take_ok {r r' : Relay} {channel ack maxItems maxBytes : Nat} {out : List Item × Depth}
    (h : r.take channel token after ack maxItems maxBytes = .ok (out, r')) :
    (r.channels channel).current = some token ∧ ack < (r.channels channel).nextId
      ∧ out.1 = ((r.channels channel).acknowledge ack).answer after maxItems maxBytes
      ∧ r' = r.setChannel channel ((r.channels channel).acknowledge ack) := by
  obtain ⟨hcur, h⟩ := of_then_error h
  obtain ⟨hcursor, ⟨⟩⟩ := of_then_error h
  exact ⟨not_not.1 hcur, (not_not.1 hcursor).1, rfl, rfl⟩

theorem take_superseded {r : Relay} {channel : Nat}
    (h : (r.channels channel).current ≠ some token) (after ack maxItems maxBytes : Nat) :
    r.take channel token after ack maxItems maxBytes = .error (Relay.supersededText channel) := by
  unfold Relay.take
  rw [if_pos h]

section SetChannel

variable (r : Relay) (channel : Nat) (ch : Channel)

@[simp] theorem channels_setChannel_self : (r.setChannel channel ch).channels channel = ch :=
  Function.update_self ..

theorem channels_setChannel {other : Nat} (h : other ≠ channel) :
    (r.setChannel channel ch).channels other = r.channels other := Function.update_of_ne h ..

end SetChannel

end Yeto.SampleRelay
