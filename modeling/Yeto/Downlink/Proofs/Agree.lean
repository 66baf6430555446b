/-
The learner's anchors are the syncer's.

A frame names, in its head, the digest of the values its receiver must end
with (`Sends`). The head survives any cut into chunks (`InboundOk`), a decode
hashes exactly the bytes of the values it fills (`DecodeOk`), and `finish`
compares. What is left is `CollisionFree`. So every way the two sides could
drift apart ends in a refused frame.
-/
import Yeto.Downlink.System

namespace Yeto.Downlink

open Lib List LearnerAnchors

variable {n : Numerics} {a : Anchor} {m : Inbound} {x : List F32} {out : List UInt8} {r : Receive}
  {tx : Transaction}

theorem f32Bytes_append (xs : List F32) {ys : List F32} :
    f32Bytes (xs ++ ys) = f32Bytes xs ++ f32Bytes ys :=
  flatMap_append

theorem le_four_inj {v w : F32} (h : le 4 v.val = le 4 w.val) : v = w := by
  have hv : ofLe (le 4 v.val) = v.val := ofLe_le_of_lt v.isLt
  have hw : ofLe (le 4 w.val) = w.val := ofLe_le_of_lt w.isLt
  exact Fin.ext (by rw [← hv, ← hw, h])

theorem f32Bytes_inj {xs : List F32} : ∀ {ys}, f32Bytes xs = f32Bytes ys → xs = ys := by
  induction xs with intro ys h
  | nil =>
    cases ys with
    | nil => rfl
    | cons y ys => cases h
  | cons x xs ih =>
    cases ys with
    | nil => cases h
    | cons y ys =>
      have hcons : le 4 x.val ++ f32Bytes xs = le 4 y.val ++ f32Bytes ys := h
      obtain ⟨hx, hxs⟩ := append_inj hcons (by rw [length_le, length_le])
      rw [le_four_inj hx, ih hxs]

variable {f : EncodedBcast} {params : List F32} {p : U32} {version : U64}

namespace DownlinkAnchors

variable {s s' : DownlinkAnchors}

theorem anchor_put (s : DownlinkAnchors) {q : U32} : (s.put p a).anchor q
      = if q = p ∧ p.val < s.anchors.length then some a else s.anchor q := by
  unfold anchor put
  rw [List.getElem?_set]
  by_cases hq : q = p
  · subst hq
    by_cases hp : q.val < s.anchors.length <;> simp [hp]
  · have hne : ¬ p.val = q.val := fun h => hq (Fin.ext h.symm)
    simp [hq, hne]

def Digests (n : Numerics) (s : DownlinkAnchors) : Prop :=
  ∀ p a, s.anchor p = some a → a.digest = digestF32 n a.values

/-- What a frame of `version` promises about the anchors that go with it:
its head names the digest of the anchor at that version or, where there
is none, of the exact parameters. -/
def Sends (n : Numerics) (s : DownlinkAnchors) (p : U32) (version : U64)
    (params : List F32) (f : EncodedBcast) : Prop :=
  ∃ kind base x, f.head = encodeHead p version kind base (digestF32 n x)
    ∧ ((∃ a, s.anchor p = some a ∧ a.version = version ∧ a.values = x)
      ∨ (s.anchor p).any (fun a => a.version == version) = false ∧ x = params)

theorem Digests.put (h : s.Digests n) (ha : a.digest = digestF32 n a.values) :
    (s.put p a).Digests n := by
  intro q b hb
  rw [anchor_put] at hb
  split at hb
  · cases hb
    exact ha
  · exact h q b hb

theorem sends_put {kind : UInt8} {base : U64} (hp : p.val < s.anchors.length)
    (hf : f.head = encodeHead p a.version kind base (digestF32 n a.values)) :
    Sends n (s.put p a) p a.version params f := by
  refine ⟨kind, base, a.values, hf, .inl ⟨a, ?_, rfl, rfl⟩⟩
  rw [anchor_put, if_pos ⟨rfl, hp⟩]

theorem reset_spec (h : s.Digests n) (hp : p.val < s.anchors.length)
    (hr : s.reset n p version params = (f, s')) : s'.Digests n ∧ Sends n s' p version params f := by
  cases hr
  exact ⟨h.put rfl, sends_put (a := ⟨version, params, _, 0⟩) hp rfl⟩

theorem publish_spec (h : s.Digests n) (hpub : s.publish n p version params = .ok (f, s')) :
    s'.Digests n ∧ Sends n s' p version params f := by
  unfold publish at hpub
  split at hpub
  · cases hpub
  · next hslot =>
    obtain ⟨hp, -⟩ := List.getElem?_eq_some_iff.1 hslot
    exact reset_spec h hp (Except.ok.inj hpub)
  · next a hslot =>
    obtain ⟨hp, -⟩ := List.getElem?_eq_some_iff.1 hslot
    split at hpub
    · split at hpub
      · exact reset_spec h hp (Except.ok.inj hpub)
      · next delta moved _ =>
        cases hpub
        exact ⟨h.put rfl, sends_put (a := ⟨version, moved, _, _⟩) hp rfl⟩
    · exact reset_spec h hp (Except.ok.inj hpub)

theorem publishFull_spec (h : s.Digests n) (hpub : s.publishFull n p version params = (f, s')) :
    s'.Digests n ∧ Sends n s' p version params f := by
  unfold publishFull at hpub
  split at hpub
  · next hslot =>
    obtain ⟨hp, -⟩ := List.getElem?_eq_some_iff.1 hslot
    exact reset_spec h hp hpub
  · next hslot =>
    cases hpub
    have hnone : s.anchor p = none := by
      unfold anchor
      rw [hslot]
      rfl
    exact ⟨h, kindFull, version, params, rfl, .inr ⟨by rw [hnone]; rfl, rfl⟩⟩

theorem resend_spec (h : s.Digests n) (p : U32) :
    Sends n s p version params (s.resend n p version params) := by
  unfold resend anchoredFull
  cases ha : s.anchor p with
  | none => exact ⟨kindFull, version, params, rfl, .inr ⟨by rw [ha]; rfl, rfl⟩⟩
  | some a =>
    by_cases hv : a.version = version
    · refine ⟨kindFull, version, a.values, ?_, .inl ⟨a, ha, hv, rfl⟩⟩
      simp only [hv, if_true, Option.getD_some]
      rw [h p a ha]
    · refine ⟨kindFull, version, params, ?_, .inr ⟨?_, rfl⟩⟩
      · simp only [hv, if_false, Option.getD_none]
        rfl
      · rw [ha]
        exact beq_eq_false_iff_ne.2 hv

end DownlinkAnchors

/-- The syncer held `x` as the anchor of the fragment at `version`, or
sent `x` exactly because it held no anchor at that version. -/
def Agrees (l : Log) (fragmentId version : Nat) (x : List F32) : Prop :=
  ∃ p : U32, ∃ v : U64, p.val = fragmentId ∧ v.val = version
    ∧ ((∃ a, (p, a) ∈ l.anchored ∧ a.version = v ∧ a.values = x) ∨ (p, v, x) ∈ l.exact)

/-- A digest the syncer put on the head of such a frame. -/
def Names (n : Numerics) (l : Log) (fragmentId version : Nat) (digest : List UInt8) : Prop :=
  ∃ x, digest = digestF32 n x ∧ Agrees l fragmentId version x

/-- A decode expects a digest of the syncer, and has hashed the values it
has filled. -/
structure DecodeOk (n : Numerics) (l : Log) (d : DownlinkDecode) : Prop where
  hashed : d.hashed = f32Bytes d.values
  named : Names n l d.fragmentId d.version d.digest

/-- A message on its way in: until its header is complete, the digest is
still among the bytes. -/
def InboundOk (n : Numerics) (l : Log) (m : Inbound) : Prop :=
  match m.tx.decode with
  | some d => DecodeOk n l d
  | none => m.tx.header.length < headerLen ∧ ∃ digest tail, digest.length = 32
        ∧ (m.tx.header ++ m.rest).drop 9 = digest ++ tail
        ∧ Names n l m.tx.fragmentId m.tx.version digest

variable {l l' : Log}

theorem Agrees.mono {fragmentId version : Nat} (h : Agrees l fragmentId version x)
    (ha : l.anchored ⊆ l'.anchored) (he : l.exact ⊆ l'.exact) : Agrees l' fragmentId version x := by
  obtain ⟨p, v, hp, hv, h⟩ := h
  refine ⟨p, v, hp, hv, ?_⟩
  cases h with
  | inl h =>
    obtain ⟨a, hm, h⟩ := h
    exact .inl ⟨a, ha hm, h⟩
  | inr h => exact .inr (he h)

theorem Names.mono {fragmentId version : Nat} {digest : List UInt8}
    (h : Names n l fragmentId version digest) (ha : l.anchored ⊆ l'.anchored)
    (he : l.exact ⊆ l'.exact) : Names n l' fragmentId version digest := by
  obtain ⟨x, hx, h⟩ := h
  exact ⟨x, hx, h.mono ha he⟩

variable {d : DownlinkDecode}

theorem DecodeOk.mono (h : DecodeOk n l d) (ha : l.anchored ⊆ l'.anchored)
    (he : l.exact ⊆ l'.exact) : DecodeOk n l' d := ⟨h.hashed, h.named.mono ha he⟩

theorem InboundOk.mono (h : InboundOk n l m) (ha : l.anchored ⊆ l'.anchored)
    (he : l.exact ⊆ l'.exact) : InboundOk n l' m := by
  unfold InboundOk at h ⊢
  split
  · next d hd =>
    rw [hd] at h
    exact h.mono ha he
  · next hd =>
    rw [hd] at h
    obtain ⟨hlen, digest, tail, hdig, hdrop, hnames⟩ := h
    exact ⟨hlen, digest, tail, hdig, hdrop, hnames.mono ha he⟩

section Note

variable (l : Log) (p : U32) (version : U64) (params : List F32)

theorem anchored_note (a : Option Anchor) : l.anchored ⊆ (l.note p version params a).anchored :=
  subset_append_left _ _

theorem exact_note (a : Option Anchor) : l.exact ⊆ (l.note p version params a).exact := by
  unfold Log.note
  split
  · exact List.Subset.refl _
  · exact subset_append_left _ _

variable {p version params}

theorem agrees_note {anchor : Option Anchor}
    (h : (∃ a, anchor = some a ∧ a.version = version ∧ a.values = x)
      ∨ anchor.any (fun a => a.version == version) = false ∧ x = params) :
    Agrees (l.note p version params anchor) p.val version.val x := by
  refine ⟨p, version, rfl, rfl, ?_⟩
  rcases h with ⟨a, rfl, hv, hvalues⟩ | ⟨hnone, rfl⟩
  · exact .inl ⟨a, mem_append_cons_self, hv, hvalues⟩
  · refine .inr ?_
    unfold Log.note
    rw [hnone]
    exact mem_append_cons_self

end Note

section Decode

variable {s : LearnerAnchors} {d' : DownlinkDecode}

variable {fragmentId version numel : Nat}

section

variable {header : List UInt8} (h : s.begin fragmentId version header numel = .ok d)
include h

theorem begin_spec : d.fragmentId = fragmentId ∧ d.version = version
      ∧ d.digest = header.drop 9 ∧ d.values = [] ∧ d.hashed = [] := by
  dsimp only [begin] at h
  split at h
  · cases h
    exact ⟨rfl, rfl, rfl, rfl, rfl⟩
  · obtain ⟨-, h⟩ := of_then_error h
    split at h
    · cases h
    · obtain ⟨-, ⟨⟩⟩ := of_then_error h
      exact ⟨rfl, rfl, rfl, rfl, rfl⟩

theorem begin_decodeOk (hn : Names n l fragmentId version (header.drop 9)) : DecodeOk n l d := by
  obtain ⟨hf, hv, hd, hvalues, hhashed⟩ := begin_spec h
  refine ⟨by rw [hvalues, hhashed]; rfl, ?_⟩
  rw [hf, hv, hd]
  exact hn

end

theorem feed_decodeOk {data : List UInt8} (h : d.feed n data = .ok (out, d'))
    (hd : DecodeOk n l d) : DecodeOk n l d' := by
  dsimp only [DownlinkDecode.feed] at h
  split at h
  · cases h
    exact ⟨hd.hashed, hd.named⟩
  · split at h
    · cases h
    · obtain ⟨-, ⟨⟩⟩ := of_else_error h
      refine ⟨?_, hd.named⟩
      rw [f32Bytes_append, hd.hashed]

theorem finish_ok (h : d.finish n = .ok ()) : n.sha256 d.hashed = d.digest := by
  obtain ⟨-, h⟩ := of_then_error h
  split at h
  · cases h
  · next hne => exact not_not.1 hne

theorem decodeWhole_ok {payload : List UInt8} {s' : LearnerAnchors}
    (h : s.decodeWhole n fragmentId version payload numel = .ok (d, s')) :
    s' = s.commit d ∧ n.sha256 d.hashed = d.digest
      ∧ ∃ d₀ out, d₀.feed n (payload.drop headerLen) = .ok (out, d)
        ∧ s.begin fragmentId version (payload.take headerLen) numel = .ok d₀ := by
  unfold decodeWhole at h
  obtain ⟨-, h⟩ := of_then_error h
  split at h
  · cases h
  next d₀ hbegin =>
  obtain ⟨-, h⟩ := of_then_error h
  split at h
  · cases h
  next out _ hfeed =>
  split at h
  · cases h
  · next hfinish =>
    cases h
    exact ⟨rfl, finish_ok hfinish, d₀, out, hfeed, hbegin⟩

theorem finishMessage_ok {innerOk : Bool} {s' : LearnerAnchors}
    (h : tx.finishMessage n s innerOk = .ok (d, s')) :
    tx.decode = some d ∧ n.sha256 d.hashed = d.digest ∧ s' = s.commit d := by
  unfold Transaction.finishMessage at h
  split at h
  · cases h
  next hd =>
  split at h
  · cases h
  · next hfinish =>
    obtain ⟨-, ⟨⟩⟩ := of_else_error h
    exact ⟨hd, finish_ok hfinish, rfl⟩

/-- The bytes of a message are consumed in order, whatever the cuts: the
header takes its 41 bytes first, and the rest goes to the decode. -/
theorem consumeChunk_ok {length : Nat} (hm : InboundOk n l m)
    (h : m.tx.consumeChunk n s (m.rest.take length) = .ok (out, tx)) :
    InboundOk n l ⟨tx, m.rest.drop length⟩ := by
  unfold Transaction.consumeChunk at h
  unfold InboundOk at hm
  cases hdec : m.tx.decode with simp only [hdec] at h hm
  | some d =>
    split at h <;> cases h
    next hfeed => exact feed_decodeOk hfeed hm
  | none =>
    obtain ⟨hlen, digest, tail, hdig, hdrop, hnames⟩ := hm
    generalize hdata : m.rest.take length = data at h
    split at h
    · -- The header is still short: it took the whole chunk.
      next hshort =>
        cases h
        rw [length_append, length_take] at hshort
        have hall : data.take (min (headerLen - m.tx.header.length) data.length) = data :=
          take_of_length_le (by omega)
        show InboundOk n l _
        simp only [hall]
        refine ⟨?_, digest, tail, hdig, ?_, hnames⟩
        · rw [length_append]
          omega
        · rw [append_assoc, ← hdata, take_append_drop]
          exact hdrop
    · next hfull =>
      split at h
      · cases h
      next d hbegin =>
      split at h <;> cases h
      next hfeed =>
      refine feed_decodeOk hfeed (begin_decodeOk hbegin ?_)
      -- The header is the first 41 bytes of the message.
      have htake : m.tx.header ++ data.take (min (headerLen - m.tx.header.length) data.length)
          = (m.tx.header ++ m.rest).take headerLen := by
        rw [length_append, length_take] at hfull
        rw [take_append, take_of_length_le (by omega : _ ≤ headerLen), ← hdata, take_take]
        congr 2
        have : data.length ≤ length := by
          rw [← hdata]
          exact length_take_le _ _
        rw [hdata]
        omega
      rw [htake, drop_take, hdrop, take_append_of_le_length (by
          rw [hdig]; exact Nat.le_refl 32), take_of_length_le (by
          rw [hdig]; exact Nat.le_refl 32)]
      exact hnames

end Decode

/-- What every session keeps. -/
structure SessionOk (n : Numerics) (w : Session) : Prop where
  digests : w.syncer.Digests n
  /-- Every frame opens with the head of a promise. -/
  sent : ∀ f ∈ w.sent, ∃ p v kind base digest,
    f.head = encodeHead p v kind base digest ∧ digest.length = 32 ∧ Names n w.log p.val v.val digest
  inbound : ∀ id m, w.inbound.find id = some m → InboundOk n w.log m
  finished : ∀ d ∈ w.finished, DecodeOk n w.log d ∧ n.sha256 d.hashed = d.digest
  /-- Only finished decodes are held. -/
  held : ∀ p h, w.learner.heldAt p = some h →
    ∃ d ∈ w.finished, d.fragmentId = p ∧ d.version = h.version ∧ d.values = h.values

theorem heldAt_commit {s : LearnerAnchors} {p : Nat}
    {h : Held} (hh : (s.commit d).heldAt p = some h) : s.heldAt p = some h
      ∨ d.fragmentId = p ∧ d.version = h.version ∧ d.values = h.values := by
  have hadopt : (LearnerAnchors.mk (s.held.set d.fragmentId (some ⟨d.version, d.values⟩))).heldAt p
        = some h → s.heldAt p = some h
        ∨ d.fragmentId = p ∧ d.version = h.version ∧ d.values = h.values := by
    intro hset
    unfold heldAt at hset ⊢
    rw [List.getElem?_set] at hset
    split at hset
    · next heq =>
      split at hset <;> cases hset
      exact .inr ⟨heq, rfl, rfl⟩
    · exact .inl hset
  unfold commit at hh
  split at hh
  · exact hadopt hh
  · split at hh
    · exact hadopt hh
    · exact .inl hh

namespace SessionOk

variable {w : Session}

section

variable (h : SessionOk n w)
include h

theorem drop (id : Nat) : SessionOk n (w.drop id) :=
  { h with
    inbound := fun id' m hm => by exact h.inbound id' m (SortedMap.find_erase_cases hm).2 }

theorem insert (id : Nat) (hm : InboundOk n w.log m) :
    SessionOk n { w with inbound := w.inbound.insert id m } :=
  { h with
  inbound := fun id' m' hm' => by
    obtain ⟨-, rfl⟩ | ⟨-, hm'⟩ := SortedMap.find_insert_cases hm'
    · exact hm
    · exact h.inbound id' m' hm' }

theorem adopt (hd : DecodeOk n w.log d) (hash : n.sha256 d.hashed = d.digest) :
    SessionOk n (w.adopt (d, w.learner.commit d)) :=
  { h with
  finished := fun d' hd' => by
    rcases mem_snoc.1 hd' with hd' | rfl
    · exact h.finished d' hd'
    · exact ⟨hd, hash⟩
  held := fun p held hp => by
    rcases heldAt_commit hp with hp | hp
    · obtain ⟨d', hd', hsame⟩ := h.held p held hp
      exact ⟨d', mem_append_left _ hd', hsame⟩
    · exact ⟨d, mem_append_cons_self, hp⟩ }

theorem record {s : DownlinkAnchors} (hs : s.Digests n ∧ s.Sends n p version params f) :
    SessionOk n (w.record p version params f s) := by
  obtain ⟨hdigests, kind, base, x, hhead, hx⟩ := hs
  have ha := anchored_note w.log p version params (s.anchor p)
  have he := exact_note w.log p version params (s.anchor p)
  have hagrees : Agrees (w.log.note p version params (s.anchor p)) p.val
      version.val x := agrees_note w.log hx
  refine ⟨hdigests, ?_, ?_, ?_, h.held⟩
  · intro g hg
    rcases mem_snoc.1 hg with hg | rfl
    · obtain ⟨p', v', kind', base', digest', hhead', hlen, hn⟩ := h.sent g hg
      exact ⟨p', v', kind', base', digest', hhead', hlen, hn.mono ha he⟩
    · exact ⟨p, version, kind, base, _, hhead, n.length_sha256 _, x, rfl, hagrees⟩
  · exact fun id m hm => (h.inbound id m hm).mono ha he
  · exact fun d hd => ⟨(h.finished d hd).1.mono ha he, (h.finished d hd).2⟩

theorem call (c : Call) : SessionOk n (w.call n c) := by
  cases c with
  | publish p version params =>
    dsimp only [Session.call]
    split
    · exact h
    · next hpub => exact h.record (DownlinkAnchors.publish_spec h.digests hpub)
  | publishFull p version params => exact h.record (DownlinkAnchors.publishFull_spec h.digests rfl)
  | resend p version params => exact h.record ⟨h.digests, DownlinkAnchors.resend_spec h.digests p⟩

/-- What the learner reads off a frame of the syncer. -/
theorem opened (hf : f ∈ w.sent) : ∃ digest tail, digest.length = 32
      ∧ (Session.opened n f).2.2.drop 9 = digest ++ tail
      ∧ headerLen ≤ (Session.opened n f).2.2.length
      ∧ Names n w.log (Session.opened n f).1 (Session.opened n f).2.1 digest := by
  obtain ⟨p, v, kind, base, digest, hhead, hlen, hn⟩ := h.sent f hf
  have hp : ofLe (le 4 p.val) = p.val := ofLe_le_of_lt p.isLt
  have hv : ofLe (le 8 v.val) = v.val := ofLe_le_of_lt v.isLt
  generalize htensor : tensorBytes n f.dtype f.values = tensor
  have hpay : f.payload n = le 4 p.val ++ (le 8 v.val
      ++ (kind :: (le 8 base.val ++ (digest ++ tensor)))) := by
    unfold EncodedBcast.payload
    rw [hhead, htensor]
    simp only [encodeHead, append_assoc, cons_append]
  have h4 : (f.payload n).take 4 = le 4 p.val := by rw [hpay, take_left' (length_le 4 _)]
  have d4 : (f.payload n).drop 4 = le 8 v.val
      ++ (kind :: (le 8 base.val ++ (digest ++ tensor))) := by rw [hpay, drop_left' (length_le 4 _)]
  have d12 : (f.payload n).drop 12 = kind :: (le 8 base.val ++ (digest ++ tensor)) := by
    rw [show (12 : Nat) = 4 + 8 from rfl, ← drop_drop, d4, drop_left' (length_le 8 _)]
  refine ⟨digest, tensor, hlen, ?_, ?_, ?_⟩
  · show ((f.payload n).drop 12).drop 9 = _
    rw [d12, drop_succ_cons, drop_left' (length_le 8 _)]
  · show 41 ≤ ((f.payload n).drop 12).length
    rw [d12, length_cons, length_append, length_append, length_le, hlen]
    omega
  · show Names n w.log (ofLe ((f.payload n).take 4)) (ofLe (((f.payload n).drop 4).take 8)) digest
    rw [h4, d4, take_left' (length_le 8 _), hp, hv]
    exact hn

theorem receive (hr : r.From w) : SessionOk n (w.receive n r).2 := by
  cases r with
  | openMessage id f =>
    obtain ⟨digest, tail, hlen, hdrop, -, hn⟩ := h.opened hr
    dsimp only [Session.receive]
    split
    · exact h
    · refine h.insert id ?_
      exact ⟨(by decide : 0 < headerLen), digest, tail, hlen, hdrop, hn⟩
  | chunk id length =>
    dsimp only [Session.receive]
    split
    · exact h
    · next m hm =>
      split
      · exact h.drop id
      · next hchunk => exact h.insert id (consumeChunk_ok (h.inbound id m hm) hchunk)
  | finish id innerOk =>
    dsimp only [Session.receive]
    split
    · exact h
    next m hm =>
    split
    · exact h.drop id
    next r hfinish =>
    obtain ⟨d, s'⟩ := r
    obtain ⟨hdec, hash, rfl⟩ := finishMessage_ok hfinish
    have hok := h.inbound id m hm
    unfold InboundOk at hok
    rw [hdec] at hok
    exact (h.drop id).adopt ⟨hok.hashed, hok.named⟩ hash
  | abort id => exact h.drop id
  | whole f =>
    obtain ⟨digest, tail, hlen, hdrop, hlong, hn⟩ := h.opened hr
    dsimp only [Session.receive]
    split
    · exact h
    split
    · exact h
    next r hwhole =>
    obtain ⟨d, s'⟩ := r
    have hheader : ((Session.opened n f).2.2.take headerLen).drop 9 = digest := by
      rw [drop_take, hdrop]
      exact take_left' (by rw [hlen]; rfl)
    obtain ⟨rfl, hash, d₀, out, hfeed, hbegin⟩ := decodeWhole_ok hwhole
    refine h.adopt (feed_decodeOk hfeed ?_) hash
    exact begin_decodeOk hbegin (by rw [hheader]; exact hn)

end

end SessionOk

theorem sessionOk_start {fragments fullEvery : Nat} {s : DownlinkAnchors}
    (h : DownlinkAnchors.new fragments fullEvery = .ok s)
    (numels : List Nat) : SessionOk n (.start s numels) := by
  have hnone : ∀ p a, s.anchor p ≠ some a := by
    intro p a ha
    obtain ⟨-, ⟨⟩⟩ := of_then_error h
    unfold DownlinkAnchors.anchor at ha
    rw [List.getElem?_replicate] at ha
    split at ha <;> cases ha
  have hheld : ∀ p h, (new numels.length).heldAt p ≠ some h := by
    intro p h hp
    unfold new heldAt at hp
    rw [List.getElem?_replicate] at hp
    split at hp <;> cases hp
  exact ⟨fun p a ha => absurd ha (hnone p a), fun _ hf => (by cases hf),
    fun _ _ hm => (by cases hm), fun _ hd => (by cases hd), fun p h hp => absurd hp (hheld p h)⟩

variable {fragments fullEvery : Nat} {numels : List Nat} {w : Session}

theorem sessionOk_reachable (hw : (sessions n fragments fullEvery numels).Reachable w) :
    SessionOk n w := by
  refine System.invariant (P := SessionOk n) ?_ ?_ hw
  · rintro w ⟨s, hs, rfl⟩
    exact sessionOk_start hs numels
  · rintro w w' - hok (⟨c, rfl⟩ | ⟨r, hr, rfl⟩)
    · exact hok.call c
    · exact hok.receive hr

/-- No finished decode collides with values the syncer hashed. -/
def CollisionFree (n : Numerics) (w : Session) : Prop :=
  ∀ d ∈ w.finished, ∀ fragmentId version x, Agrees w.log fragmentId version x →
    n.sha256 d.hashed = n.sha256 (f32Bytes x) → d.hashed = f32Bytes x

structure AnchorsAgree (n : Numerics) (w : Session) : Prop where
  /-- The learner holds at version `v` what the syncer held, or sent
  exactly, at version `v`. -/
  held : ∀ p h, w.learner.heldAt p = some h → Agrees w.log p h.version h.values
  /-- So does every decode that was not refused. -/
  finished : ∀ d ∈ w.finished, Agrees w.log d.fragmentId d.version d.values
  /-- A refused frame leaves the held anchors as they are. -/
  refused : ∀ r e w', w.receive n r = (some e, w') → w'.learner = w.learner
  /-- What is not refused ends in a finished decode, or changes nothing. -/
  received : ∀ r w', w.receive n r = (none, w') →
    w'.learner = w.learner ∨ ∃ d, w'.finished = w.finished ++ [d] ∧ w'.learner = w.learner.commit d

theorem receive_learner {e : Option DownlinkError} {w' : Session} (h : w.receive n r = (e, w')) :
    w'.learner = w.learner ∨ e = none ∧ ∃ d, w'.finished = w.finished ++ [d]
        ∧ w'.learner = w.learner.commit d := by
  cases r with dsimp only [Session.receive] at h
  | openMessage id f => split at h <;> cases h <;> exact .inl rfl
  | chunk id length =>
    split at h
    · cases h
      exact .inl rfl
    · split at h <;> cases h <;> exact .inl rfl
  | finish id innerOk =>
    split at h
    · cases h
      exact .inl rfl
    split at h
    · cases h
      exact .inl rfl
    · next r hfinish =>
      cases h
      obtain ⟨d, s'⟩ := r
      obtain ⟨-, -, rfl⟩ := finishMessage_ok hfinish
      exact .inr ⟨rfl, d, rfl, rfl⟩
  | abort id =>
    cases h
    exact .inl rfl
  | whole f =>
    split at h
    · cases h
      exact .inl rfl
    · split at h
      · cases h
        exact .inl rfl
      · next r hwhole =>
        cases h
        obtain ⟨d, s'⟩ := r
        obtain ⟨rfl, -⟩ := decodeWhole_ok hwhole
        exact .inr ⟨rfl, d, rfl, rfl⟩

/-- LEARNER AND SYNCER AGREE: in every state of every session, whatever
was published, re-sent, lost, repeated, reordered or cut. -/
theorem anchors_agree (hw : (sessions n fragments fullEvery numels).Reachable w)
    (hfree : CollisionFree n w) : AnchorsAgree n w := by
  have hok := sessionOk_reachable hw
  have hfinished : ∀ d ∈ w.finished, Agrees w.log d.fragmentId d.version d.values := by
    intro d hd
    obtain ⟨⟨hhashed, x, hx, hagrees⟩, hash⟩ := hok.finished d hd
    have hbytes := hfree d hd _ _ x hagrees (by rw [hash, hx]; rfl)
    rw [hhashed] at hbytes
    rw [f32Bytes_inj hbytes]
    exact hagrees
  refine ⟨?_, hfinished, ?_, ?_⟩
  · intro p h hp
    obtain ⟨d, hd, rfl, hv, hvalues⟩ := hok.held p h hp
    rw [← hv, ← hvalues]
    exact hfinished d hd
  · intro r e w' hr
    rcases receive_learner hr with h | ⟨h, -⟩
    · exact h
    · cases h
  · intro r w' hr
    rcases receive_learner hr with h | ⟨-, h⟩
    · exact .inl h
    · exact .inr h

section Sample

/-- f32, bf16 and SHA-256 on the numbers of the sample: 1, 2 and 1 + 2⁻⁷.
Other sums and differences are those of subnormal numbers, whose bits add
up. -/
def bitNumerics : Numerics where
  add x y := if x = 0x3F800000 ∧ y = 0x3C000000 then 0x3F810000 else x + y
  sub x y := if x = 0x3F810000 ∧ y = 0x3F800000 then 0x3C000000 else x - y
  round x := Fin.ofNat 65536 ((x.val + 32767 + x.val / 65536 % 2) / 65536)
  toF32 := widen
  toF32_finite _ _ := rfl
  sha256 bytes := le 32 <|
    if bytes = f32Bytes [0x3F800000, 0x40000000] then
      0x371df2fe722b113fc85b487aef7b1f275d65ccc35069a1530745cade5a0bc8b9
    else if bytes = f32Bytes [0x3F810000, 0x40000000] then
      0x40f4a5fbf4d9d8c4a44e79bd11e6360461d7f23455de757092476e0498fd6128
    else 0
  length_sha256 _ := length_le 32 _

/-- Two publications of one fragment: the first goes out FULL, the second
as a delta. -/
def samplePublished : Session := ((Session.start ⟨4, [none]⟩ [2]).call bitNumerics
    (.publish 0 1 [1065353216, 1073741824])).call bitNumerics
    (.publish 0 2 [1065418752, 1073741824])

def sampleFull : EncodedBcast := samplePublished.sent.headD ⟨[], .f32, []⟩

def sampleDelta : EncodedBcast := samplePublished.sent.getLastD ⟨[], .f32, []⟩

def sampleReceives : List Receive :=
  [.whole sampleFull, .openMessage 7 sampleDelta, .chunk 7 20, .chunk 7 22,
   .chunk 7 3, .finish 7 true]

def sampleSession : Session :=
  sampleReceives.foldl (fun w r => (w.receive bitNumerics r).2) samplePublished

theorem reachable_sample : (sessions bitNumerics 1 4 [2]).Reachable sampleSession := by
  have hs : (sessions bitNumerics 1 4 [2]).Reachable (.start ⟨4, [none]⟩ [2]) := .init ⟨_, rfl, rfl⟩
  have h0 : (sessions bitNumerics 1 4 [2]).Reachable samplePublished :=
    (hs.step (.inl ⟨_, rfl⟩)).step (.inl ⟨_, rfl⟩)
  have h1 := h0.step (.inr ⟨.whole sampleFull,
    (by decide +kernel : sampleFull ∈ samplePublished.sent), rfl⟩)
  have h2 := h1.step (.inr ⟨.openMessage 7 sampleDelta,
    (by decide +kernel : sampleDelta ∈ samplePublished.sent), rfl⟩)
  have h3 := h2.step (.inr ⟨.chunk 7 20, trivial, rfl⟩)
  have h4 := h3.step (.inr ⟨.chunk 7 22, trivial, rfl⟩)
  have h5 := h4.step (.inr ⟨.chunk 7 3, trivial, rfl⟩)
  exact h5.step (.inr ⟨.finish 7 true, trivial, rfl⟩)

theorem collisionFree_of_log (ha : ∀ d ∈ w.finished, ∀ e ∈ w.log.anchored,
      n.sha256 d.hashed = n.sha256 (f32Bytes e.2.values) → d.hashed = f32Bytes e.2.values)
    (he : ∀ d ∈ w.finished, ∀ e ∈ w.log.exact, n.sha256 d.hashed = n.sha256 (f32Bytes e.2.2) →
        d.hashed = f32Bytes e.2.2) : CollisionFree n w := by
  rintro d hd _ _ x ⟨p, v, -, -, ⟨a, hm, -, rfl⟩ | hm⟩ hash
  · exact ha d hd _ hm hash
  · exact he d hd _ hm hash

/-- The learner of that run holds the moved anchor of version 2. -/
theorem anchors_agree_sample : sampleSession.learner.heldAt 0 = some ⟨2, [1065418752, 1073741824]⟩
      ∧ AnchorsAgree bitNumerics sampleSession := ⟨by decide +kernel, anchors_agree reachable_sample
    (collisionFree_of_log (by decide +kernel) (by decide +kernel))⟩

end Sample

end Yeto.Downlink
