/-
A learner that gets the frames follows the syncer: a frame that arrives, whole
or in chunks cut anywhere, is taken. Every chunk keeps what is expected of a
decode (`Expects`). A FULL brings its fragment in step, and a delta is made
against what a learner in step holds.
-/
import Yeto.Downlink.Proofs.Agree

namespace Yeto.Downlink

open Lib List

variable {n : Numerics} {α : Type} {bytes data : List UInt8} {i j w : Nat}

theorem words_add (w i j : Nat) (bytes : List UInt8) :
    words w (i + j) bytes = words w i bytes ++ words w j (bytes.drop (i * w)) := by
  induction i generalizing bytes with
  | zero => simp [words]
  | succ i ih =>
    rw [Nat.succ_add]
    simp only [words, ih, cons_append, drop_drop]
    rw [Nat.succ_mul, Nat.add_comm]

theorem words_append (h : i * w ≤ bytes.length) : words w i (bytes ++ data) = words w i bytes := by
  induction i generalizing bytes with
  | zero => rfl
  | succ i ih =>
    rw [Nat.succ_mul] at h
    simp only [words]
    rw [take_append_of_le_length (by omega), drop_append_of_le_length (by omega),
      ih (by rw [length_drop]; omega)]

theorem length_words (w i : Nat) (bytes : List UInt8) : (words w i bytes).length = i := by
  induction i generalizing bytes with
  | zero => rfl
  | succ i ih => simp [words, ih]

theorem length_flatMap_le (g : α → Nat) (xs : List α) :
    (xs.flatMap fun x => le w (g x)).length = xs.length * w := by
  induction xs with
  | nil => simp
  | cons x xs ih => rw [flatMap_cons, length_append, ih, length_le, length_cons, Nat.succ_mul,
      Nat.add_comm]

theorem words_flatMap (g : α → Nat) (xs : List α) (hg : ∀ x ∈ xs, g x < 256 ^ w) :
    words w xs.length (xs.flatMap fun x => le w (g x)) = xs.map g := by
  induction xs with
  | nil => rfl
  | cons x xs ih =>
    rw [flatMap_cons, length_cons, map_cons]
    simp only [words]
    rw [take_left' (length_le w _), drop_left' (length_le w _), ofLe_le_of_lt (hg x mem_cons_self),
      ih fun y hy => hg y (mem_cons_of_mem _ hy)]

namespace DownlinkDecode

variable {d : DownlinkDecode} {rest : List UInt8} {fid ver : Nat} {x : List F32}

theorem width_pos (d : DownlinkDecode) : 0 < d.width := by
  unfold width
  split <;> decide

theorem decoded_zero (raw : List UInt8) : d.decoded n 0 raw = [] := by
  unfold decoded
  split <;> simp [words]

/-- The words that are complete are decoded, and the rest is carried. -/
theorem feed_eq {raw : List UInt8} (data : List UInt8) (hraw : d.carry ++ data = raw)
    (hfit : d.values.length + raw.length / d.width ≤ d.numel)
    (hfinite : (d.decoded n (raw.length / d.width) raw).all isFinite = true) :
    ∃ out, d.feed n data = .ok (out, { d with
      carry := raw.drop (raw.length / d.width * d.width)
      values := d.values ++ d.decoded n (raw.length / d.width) raw
      hashed := d.hashed ++ f32Bytes (d.decoded n (raw.length / d.width) raw) }) := by
  unfold feed
  dsimp only
  rw [hraw, ← Nat.div_mul_self_eq_mod_sub_self, Nat.mul_div_cancel _ d.width_pos]
  by_cases hnone : raw.length / d.width = 0
  · refine ⟨[], ?_⟩
    rw [hnone, Nat.zero_mul, if_pos rfl, drop_zero, decoded_zero, append_nil]
    simp [f32Bytes]
  · have hsome : ¬ raw.length / d.width * d.width = 0 := by
      simp [hnone, Nat.ne_of_gt d.width_pos]
    rw [if_neg hsome, if_neg (Nat.not_lt.2 hfit), if_pos hfinite]
    exact ⟨_, rfl⟩

/-- Fed `rest`, in chunks cut anywhere, the decode holds `x`. -/
structure Expects (n : Numerics) (fid ver : Nat) (x : List F32) (d : DownlinkDecode)
    (rest : List UInt8) : Prop where
  fragmentId : d.fragmentId = fid
  version : d.version = ver
  base : d.kind = kindFull ∨ d.base.length = d.numel
  count : d.values.length ≤ d.numel
  length : (d.carry ++ rest).length = (d.numel - d.values.length) * d.width
  /-- Less than a word is carried. -/
  short : d.carry.length < d.width
  values : d.values ++ d.decoded n (d.numel - d.values.length) (d.carry ++ rest) = x
  finite : x.all isFinite = true
  hashed : d.hashed = f32Bytes d.values
  digest : d.digest = digestF32 n x

theorem length_decoded (hbase : d.kind = kindFull ∨ d.base.length = d.numel) (raw : List UInt8)
    (hi : d.values.length + i ≤ d.numel) : (d.decoded n i raw).length = i := by
  unfold decoded
  split
  · rw [length_map, length_words]
  · next hkind =>
    have hlen := hbase.resolve_left hkind
    rw [length_zipWith, length_take, length_drop, length_map, length_words]
    omega

/-- What follows is decoded as if it came alone. -/
theorem decoded_add (hbase : d.kind = kindFull ∨ d.base.length = d.numel) {raw : List UInt8}
    (hi : d.values.length + i ≤ d.numel) (hraw : i * d.width ≤ raw.length) :
    d.decoded n (i + j) (raw ++ rest) = d.decoded n i raw
      ++ { d with values := d.values ++ d.decoded n i raw }.decoded n j
        (raw.drop (i * d.width) ++ rest) := by
  have hlen := length_decoded (n := n) hbase raw hi
  have hdrop : (raw ++ rest).drop (i * d.width) = raw.drop (i * d.width) ++ rest :=
    drop_append_of_le_length hraw
  generalize hdone : d.decoded n i raw = done at hlen ⊢
  by_cases hkind : d.kind = kindFull
  · simp only [decoded, width, hkind, if_true] at hdone hraw hdrop ⊢
    rw [words_add, words_append hraw, hdrop, map_append, hdone]
  · have hsame := hbase.resolve_left hkind
    simp only [decoded, width, hkind, if_false, length_append, hlen] at hdone hraw hdrop ⊢
    rw [words_add, words_append hraw, hdrop, map_append, take_add, zipWith_append, hdone, drop_drop]
    rw [length_take, length_drop, length_map, length_words]
    omega

theorem Expects.feed (h : d.Expects n fid ver x (data ++ rest)) :
    ∃ out d', d.feed n data = .ok (out, d') ∧ d'.Expects n fid ver x rest := by
  have hlength := h.length
  have hvalues := h.values
  rw [← append_assoc] at hlength hvalues
  generalize hraw : d.carry ++ data = raw at hlength hvalues
  have hwhole := Nat.div_mul_le_self raw.length d.width
  have hle : raw.length / d.width ≤ d.numel - d.values.length := by
    refine Nat.le_of_mul_le_mul_right (hwhole.trans ?_) d.width_pos
    rw [← hlength, length_append]
    exact Nat.le_add_right _ _
  -- `j` words stay for the chunks to come
  obtain ⟨j, hj⟩ := Nat.exists_eq_add_of_le hle
  have hcount := h.count
  have hfit : d.values.length + raw.length / d.width ≤ d.numel := by omega
  have hdone := length_decoded (n := n) h.base raw hfit
  have hleft : d.numel - (d.values.length + raw.length / d.width) = j := by omega
  rw [hj, length_append, Nat.add_mul] at hlength
  rw [hj, decoded_add h.base hfit hwhole, ← append_assoc] at hvalues
  have hfinite : (d.decoded n (raw.length / d.width) raw).all isFinite = true := by
    have := h.finite
    rw [← hvalues, all_append, all_append, Bool.and_eq_true, Bool.and_eq_true] at this
    exact this.1.2
  obtain ⟨out, hfeed⟩ := feed_eq data hraw hfit hfinite
  refine ⟨out, _, hfeed, h.fragmentId, h.version, h.base, ?_, ?_, ?_, ?_, h.finite, ?_, h.digest⟩
  · rw [length_append, hdone]
    exact hfit
  · show (_ ++ rest).length = (d.numel - (d.values ++ _).length) * d.width
    rw [length_append, length_append, length_drop, hdone, hleft]
    omega
  · show (raw.drop _).length < d.width
    rw [length_drop, Nat.div_mul_self_eq_mod_sub_self, Nat.sub_sub_self (Nat.mod_le _ _)]
    exact Nat.mod_lt _ d.width_pos
  · show (d.values ++ _) ++ DownlinkDecode.decoded n _ (d.numel - (d.values ++ _).length) _ = x
    rw [length_append, hdone, hleft]
    exact hvalues
  · rw [f32Bytes_append, ← h.hashed]

theorem Expects.finish (h : d.Expects n fid ver x []) :
    d.values = x ∧ d.finish n = .ok () := by
  have hlength := h.length
  have hvalues := h.values
  rw [append_nil] at hlength hvalues
  have hnone : d.numel - d.values.length = 0 := by
    refine Nat.eq_zero_of_not_pos fun hpos => Nat.not_le.2 h.short ?_
    rw [hlength]
    exact Nat.le_mul_of_pos_left _ hpos
  rw [hnone, Nat.zero_mul] at hlength
  rw [hnone, decoded_zero, append_nil] at hvalues
  have hfull : d.values.length = d.numel := Nat.le_antisymm h.count (Nat.sub_eq_zero_iff_le.1 hnone)
  refine ⟨hvalues, ?_⟩
  have hhash : n.sha256 d.hashed = d.digest := by
    rw [h.hashed, hvalues, h.digest]
    rfl
  unfold DownlinkDecode.finish
  rw [if_neg (by simp [length_eq_zero_iff.1 hlength, hfull]), if_neg (not_not.2 hhash)]

end DownlinkDecode

def Call.fragment : Call → U32
  | .publish p _ _ | .publishFull p _ _ | .resend p _ _ => p

def Call.version : Call → U64
  | .publish _ v _ | .publishFull _ v _ | .resend _ v _ => v

/-- A delta needs a learner in step (`S`), and a re-send the anchor of its
version. -/
def Call.Safe (s : DownlinkAnchors) (S : List U32) : Call → Prop
  | .publish p _ _ => p ∈ S ∨ s.anchor p = none
  | .publishFull .. => True
  | .resend p v _ => ∃ a ∈ s.anchor p, a.version = v

/-- Fed `rest`, the message ends with a decode of `x`. -/
def Transaction.Expects (n : Numerics) (s : LearnerAnchors) (x : List F32) (tx : Transaction)
    (rest : List UInt8) : Prop :=
  match tx.decode with
  | some d => d.Expects n tx.fragmentId tx.version x rest
  | none => ∃ header tensor d, tx.header ++ rest = header ++ tensor
    ∧ tx.header.length < headerLen ∧ header.length = headerLen
    ∧ s.begin tx.fragmentId tx.version header tx.numel = .ok d
    ∧ d.Expects n tx.fragmentId tx.version x tensor

variable {s : LearnerAnchors} {d : DownlinkDecode} {fid ver numel : Nat}
  {header tensor rest : List UInt8} {x : List F32} {tx : Transaction}

theorem Transaction.Expects.consume (h : tx.Expects n s x (data ++ rest)) :
    ∃ out tx', tx.consumeChunk n s data = .ok (out, tx') ∧ tx'.Expects n s x rest
      ∧ tx'.fragmentId = tx.fragmentId ∧ tx'.version = tx.version := by
  obtain ⟨i, v, numel, got, decode⟩ := tx
  cases decode with
  | some d =>
    obtain ⟨out, d', hfeed, hd⟩ := DownlinkDecode.Expects.feed h
    refine ⟨out, ⟨i, v, numel, got, some d'⟩, ?_, hd, rfl, rfl⟩
    simp only [Transaction.consumeChunk, hfeed]
  | none =>
    obtain ⟨header, tensor, d, hstream, hshort, hheader, hbegin, hd⟩ := h
    dsimp only at hstream hshort
    by_cases hmore : (got ++ data).length < headerLen
    · -- still in the header
      refine ⟨[], ⟨i, v, numel, got ++ data, none⟩, ?_,
        ⟨header, tensor, d, by rw [← hstream, append_assoc], hmore, hheader, hbegin, hd⟩, rfl, rfl⟩
      rw [length_append] at hmore
      unfold Transaction.consumeChunk
      dsimp only
      rw [Nat.min_eq_right (by omega), take_length, if_pos (by rw [length_append]; exact hmore)]
    · -- the header is complete, and the decode begins
      rw [length_append] at hmore
      rw [← take_append_drop (headerLen - got.length) data, append_assoc, ← append_assoc] at hstream
      obtain ⟨hhead, htensor⟩ := append_inj hstream (by
        rw [length_append, length_take, hheader]
        omega)
      rw [← htensor] at hd
      obtain ⟨out, d', hfeed, hd'⟩ := hd.feed
      refine ⟨out, ⟨i, v, numel, header, some d'⟩, ?_, hd', rfl, rfl⟩
      unfold Transaction.consumeChunk
      dsimp only
      rw [Nat.min_eq_left (by omega), hhead, if_neg (by omega), hbegin]
      simp only [hfeed]

theorem Transaction.Expects.finish (h : tx.Expects n s x []) :
    ∃ d, d.Expects n tx.fragmentId tx.version x []
      ∧ tx.finishMessage n s true = .ok (d, s.commit d) := by
  obtain ⟨i, v, numel, got, decode⟩ := tx
  cases decode with
  | some d =>
    refine ⟨d, h, ?_⟩
    simp only [Transaction.finishMessage, h.finish.2, if_true]
  | none =>
    obtain ⟨header, tensor, -, hstream, hshort, hheader, -⟩ := h
    have := congrArg length hstream
    rw [append_nil, length_append] at this
    omega

/-- The learner took `x` for a fragment, and nothing else changed. -/
structure Took (w : Session) (fid ver : Nat) (x : List F32) (w' : Session) : Prop where
  held : w'.learner.heldAt fid = some ⟨ver, x⟩
  others : ∀ i ≠ fid, w'.learner.heldAt i = w.learner.heldAt i
  syncer : w'.syncer = w.syncer
  numels : w'.numels = w.numels

/-- The learner takes all of these, without an exception. -/
def Session.takes (n : Numerics) : Session → List Receive → Option Session
  | w, [] => some w
  | w, r :: rs =>
    match w.receive n r with
    | (none, w') => w'.takes n rs
    | (some _, _) => none

/-- How a frame arrives: whole, or in chunks of these lengths. -/
inductive Way
  | whole
  | chunks (id : Nat) (cuts : List Nat)

def Way.arrival (f : EncodedBcast) : Way → List Receive
  | whole => [.whole f]
  | chunks id cuts => .openMessage id f :: (cuts.map (Receive.chunk id) ++ [.finish id true])

/-- The chunks hold this many bytes. -/
def Way.Covers (length : Nat) : Way → Prop
  | whole => True
  | chunks _ cuts => length ≤ cuts.sum

variable {w w' : Session} {id : Nat} {cuts : List Nat} {f : EncodedBcast}

theorem took_commit (hd : d.Expects n fid ver x [])
    (hfit : fid < w.learner.held.length)
    (hnew : ∀ h, w.learner.heldAt fid = some h → h.version ≤ ver)
    (hlearner : w'.learner = w.learner.commit d) (hsyncer : w'.syncer = w.syncer)
    (hnumels : w'.numels = w.numels) : Took w fid ver x w' := by
  obtain rfl := hd.fragmentId
  obtain rfl := hd.version
  obtain rfl := hd.finish.1
  have hadopt : w'.learner = ⟨w.learner.held.set d.fragmentId (some ⟨d.version, d.values⟩)⟩ := by
    rw [hlearner]
    unfold LearnerAnchors.commit
    split
    · rfl
    · next h hheld => rw [if_pos (hnew h hheld)]
  refine ⟨?_, fun i hi => ?_, hsyncer, hnumels⟩
  · simp [hadopt, LearnerAnchors.heldAt, hfit]
  · simp [hadopt, LearnerAnchors.heldAt, hi.symm]

/-- The chunks and the end of a message. -/
theorem takes_chunks {m : Inbound} (hm : w.inbound.find id = some m)
    (hexp : m.tx.Expects n w.learner x m.rest) (hcuts : m.rest.length ≤ cuts.sum)
    (hfit : m.tx.fragmentId < w.learner.held.length)
    (hnew : ∀ h, w.learner.heldAt m.tx.fragmentId = some h → h.version ≤ m.tx.version) :
    ∃ w', w.takes n (cuts.map (Receive.chunk id) ++ [.finish id true]) = some w'
      ∧ Took w m.tx.fragmentId m.tx.version x w' := by
  induction cuts generalizing w m with
  | nil =>
    rw [length_eq_zero_iff.1 (Nat.le_zero.1 hcuts)] at hexp
    obtain ⟨d, hd, hfinish⟩ := hexp.finish
    refine ⟨(w.drop id).adopt (d, w.learner.commit d), ?_, took_commit hd hfit hnew rfl rfl rfl⟩
    simp [Session.takes, Session.receive, hm, hfinish]
  | cons cut cuts ih =>
    rw [← take_append_drop cut m.rest] at hexp
    obtain ⟨out, tx, hchunk, htx, hid, hversion⟩ := hexp.consume
    rw [← hid, ← hversion] at hnew ⊢
    rw [← hid] at hfit
    let next : Inbound := ⟨tx, m.rest.drop cut⟩
    obtain ⟨w', htakes, htook⟩ := ih (w := { w with inbound := w.inbound.insert id next })
      (m := next) (SortedMap.find_insert_self ..) htx (by
        show (m.rest.drop cut).length ≤ cuts.sum
        rw [length_drop]
        rw [sum_cons] at hcuts
        omega) hfit hnew
    refine ⟨w', ?_, htook.held, htook.others, htook.syncer, htook.numels⟩
    rw [← htakes, map_cons, cons_append]
    simp [Session.takes, Session.receive, hm, hchunk, next]

section Arrival

variable {p : U32} {v base : U64} {kind : UInt8} {digest : List UInt8} {held : List F32}

/-- What the learner reads off a frame. -/
theorem opened_head (hhead : f.head = encodeHead p v kind base digest) : Session.opened n f
      = (p.val, v.val, kind :: (le 8 base.val ++ digest) ++ tensorBytes n f.dtype f.values) := by
  have hpay : f.payload n = le 4 p.val ++ (le 8 v.val
      ++ (kind :: (le 8 base.val ++ digest) ++ tensorBytes n f.dtype f.values)) := by
    unfold EncodedBcast.payload
    rw [hhead]
    simp only [encodeHead, append_assoc, cons_append]
  unfold Session.opened
  dsimp only
  rw [hpay, show (12 : Nat) = 4 + 8 from rfl, ← drop_drop]
  simp only [take_left' (length_le 4 _), drop_left' (length_le 4 _), take_left' (length_le 8 _),
    drop_left' (length_le 8 _)]
  rw [ofLe_le_of_lt p.isLt, ofLe_le_of_lt v.isLt]

theorem decodeWhole_expects (hheader : header.length = headerLen)
    (hbegin : s.begin fid ver header numel
      = .ok (.new fid ver kind held digest numel))
    (hd : (DownlinkDecode.new fid ver kind held digest numel).Expects n fid ver
      x tensor) : ∃ d, d.Expects n fid ver x []
        ∧ s.decodeWhole n fid ver (header ++ tensor) numel = .ok (d, s.commit d) := by
  have hgot : (header ++ tensor).length - headerLen = tensor.length := by
    rw [length_append, hheader, Nat.add_sub_cancel_left]
  have hwant : tensor.length = tensorNbytes kind numel := by
    rw [show tensor.length = _ from hd.length, Nat.mul_comm]
    exact ite_mul ..
  rw [← append_nil tensor] at hd
  obtain ⟨out, d, hfeed, hd⟩ := hd.feed
  refine ⟨d, hd, ?_⟩
  unfold LearnerAnchors.decodeWhole
  rw [if_neg (by rw [length_append]; omega), take_left' hheader, hbegin, drop_left' hheader]
  dsimp only
  rw [hgot, if_neg (by exact not_not.2 hwant), hfeed]
  simp only [hd.finish.2]

/-- A frame whose decode begins and is right is taken, and held. -/
theorem takes_arrival (way : Way) (hhead : f.head = encodeHead p v kind base digest)
    (hdigest : digest.length = 32) (hlayout : w.numels[p.val]? = some numel)
    (hbegin : w.learner.begin p.val v.val (kind :: (le 8 base.val ++ digest)) numel
      = .ok (.new p.val v.val kind held digest numel))
    (hd : (DownlinkDecode.new p.val v.val kind held digest numel).Expects n p.val v.val x
      (tensorBytes n f.dtype f.values))
    (hway : way.Covers (f.payload n).length) (hfit : p.val < w.learner.held.length)
    (hnew : ∀ h, w.learner.heldAt p.val = some h → h.version ≤ v.val) :
    ∃ w', w.takes n (way.arrival f) = some w' ∧ Took w p.val v.val x w' := by
  have hopened := opened_head (n := n) hhead
  have hheader : (kind :: (le 8 base.val ++ digest)).length = headerLen := by
    rw [length_cons, length_append, length_le, hdigest]
    rfl
  cases way with
  | whole =>
    obtain ⟨d, hd, hwhole⟩ := decodeWhole_expects hheader hbegin hd
    refine ⟨w.adopt (d, w.learner.commit d), ?_, took_commit hd hfit hnew rfl rfl rfl⟩
    simp only [Way.arrival, Session.takes, Session.receive, hopened, hlayout, hwhole]
  | chunks id cuts =>
    let m : Inbound := ⟨.bindFragment p.val v.val numel,
      kind :: (le 8 base.val ++ digest) ++ tensorBytes n f.dtype f.values⟩
    have hrest : m.rest.length ≤ cuts.sum := by
      refine le_trans ?_ hway
      rw [show m.rest = (f.payload n).drop 12 from (congrArg (·.2.2) hopened).symm, length_drop]
      exact Nat.sub_le _ _
    obtain ⟨w', htakes, htook⟩ := takes_chunks (n := n) (x := x)
      (w := { w with inbound := w.inbound.insert id m }) (m := m) (SortedMap.find_insert_self ..)
      ⟨kind :: (le 8 base.val ++ digest), _, _, rfl, Nat.zero_lt_succ _, hheader, hbegin, hd⟩ hrest
      hfit hnew
    refine ⟨w', ?_, htook.held, htook.others, htook.syncer, htook.numels⟩
    rw [← htakes]
    simp [Way.arrival, Session.takes, Session.receive, hopened, hlayout, m]

end Arrival

/-- Rounding to bf16 keeps what is a finite bf16 already. -/
def Rounds (n : Numerics) : Prop := ∀ b, isFinite (widen b) = true → n.round (widen b) = b

theorem expects_full (hx : x.all isFinite = true) :
    (DownlinkDecode.new fid ver kindFull [] (digestF32 n x) x.length).Expects n fid
      ver x (tensorBytes n .f32 x) := by
  have hwords : words 4 x.length (f32Bytes x) = x.map (·.val) :=
    words_flatMap _ x fun v _ => v.isLt
  refine ⟨rfl, rfl, .inl rfl, Nat.zero_le _, length_flatMap_le _ x,
    DownlinkDecode.width_pos _, ?_, hx, rfl, rfl⟩
  show (words 4 x.length (f32Bytes x)).map _ = x
  rw [hwords, map_map]
  refine (map_congr_left fun v _ => ?_).trans (map_id x)
  exact Fin.ofNat_val_eq_self v

theorem deltaLoop_spec {values params delta moved : List F32} (hlen : values.length = params.length)
    (h : DownlinkAnchors.deltaLoop n values params = some (delta, moved)) :
    delta.length = values.length ∧ moved = zipWith n.add values delta
      ∧ ∀ v ∈ delta, ∃ b, v = widen b ∧ isFinite v = true := by
  induction values generalizing params delta moved with
  | nil =>
    cases h
    exact ⟨rfl, rfl, nofun⟩
  | cons a values ih =>
    cases params with
    | nil => cases hlen
    | cons t params =>
      simp only [DownlinkAnchors.deltaLoop] at h
      split at h
      · next hfinite =>
        obtain ⟨⟨delta', moved'⟩, hrest, heq⟩ := Option.map_eq_some_iff.1 h
        cases heq
        obtain ⟨hl, rfl, hall⟩ := ih (Nat.succ.inj hlen) hrest
        refine ⟨congrArg Nat.succ hl, rfl, fun v hv => ?_⟩
        rcases mem_cons.1 hv with rfl | hv
        · exact ⟨_, n.toF32_finite _ hfinite, hfinite⟩
        · exact hall v hv
      · cases h

/-- The learner adds to its base what the syncer added to its anchor. -/
theorem expects_delta (hround : Rounds n) {values params delta moved : List F32}
    (hlen : values.length = params.length) (hnumel : values.length = numel)
    (h : DownlinkAnchors.deltaLoop n values params = some (delta, moved))
    (hmoved : moved.all isFinite = true) :
    (DownlinkDecode.new fid ver kindDelta values (digestF32 n moved) numel).Expects n
      fid ver moved (tensorBytes n .bf16 delta) := by
  obtain ⟨hl, rfl, hall⟩ := deltaLoop_spec hlen h
  rw [hnumel] at hl
  have hwords : words 2 delta.length (tensorBytes n .bf16 delta)
      = delta.map fun v => (n.round v).val := words_flatMap _ delta fun v _ => (n.round v).isLt
  refine ⟨rfl, rfl, .inr hnumel, Nat.zero_le _, hl ▸ length_flatMap_le _ delta,
    DownlinkDecode.width_pos _, ?_, hmoved, rfl, rfl⟩
  show zipWith n.add ((values.drop 0).take numel)
    ((words 2 numel (tensorBytes n .bf16 delta)).map _) = _
  rw [drop_zero, take_of_length_le hnumel.le, ← hl, hwords, map_map]
  congr 1
  refine (map_congr_left fun v hv => ?_).trans (map_id delta)
  obtain ⟨b, rfl, hfinite⟩ := hall v hv
  show widen (Fin.ofNat 65536 (n.round (widen b)).val) = widen b
  rw [hround b hfinite, Fin.ofNat_val_eq_self]

/-- The frame of an anchor: its values, or the step to them. -/
inductive Carries (n : Numerics) (s : DownlinkAnchors) (S : List U32) (p : U32) (a : Anchor) :
    EncodedBcast → Prop
  | full : Carries n s S p a
      ⟨encodeHead p a.version kindFull a.version (digestF32 n a.values), .f32, a.values⟩
  | delta {b : Anchor} {params delta : List F32} (hmem : p ∈ S) (hanchor : s.anchor p = some b)
      (hlen : b.values.length = params.length)
      (hloop : DownlinkAnchors.deltaLoop n b.values params = some (delta, a.values)) :
    Carries n s S p a
      ⟨encodeHead p a.version kindDelta b.version (digestF32 n a.values), .bf16, delta⟩

section Calls

variable {p : U32} {v : U64} {params : List F32} {s : DownlinkAnchors} {S : List U32} {c : Call}

theorem publish_carries (hp : p.val < s.anchors.length)
    (hsafe : (Call.publish p v params).Safe s S) :
    ∃ f a, s.publish n p v params = .ok (f, s.put p a) ∧ a.version = v ∧ Carries n s S p a f := by
  unfold DownlinkAnchors.publish
  have hreset : ∃ f a, Except.ok (s.reset n p v params)
      = (Except.ok (f, s.put p a) : Except String (EncodedBcast × DownlinkAnchors))
      ∧ a.version = v ∧ Carries n s S p a f := ⟨_, ⟨v, params, _, 0⟩, rfl, rfl, .full⟩
  split
  · next hnone => exact absurd (getElem?_eq_none_iff.1 hnone) (Nat.not_le.2 hp)
  · exact hreset
  · next b hslot =>
    have hanchor : s.anchor p = some b := by
      unfold DownlinkAnchors.anchor
      rw [hslot]
      rfl
    have hmem : p ∈ S := hsafe.resolve_right (by simp [hanchor])
    split
    · next hok =>
      have hlen : b.values.length = params.length := by
        simp only [DownlinkAnchors.deltaOk, Bool.and_eq_true, beq_iff_eq] at hok
        exact hok.1.2
      split
      · exact hreset
      · next hloop => exact ⟨_, ⟨v, _, _, _⟩, rfl, rfl, .delta hmem hanchor hlen hloop⟩
    · exact hreset

theorem publishFull_carries (params : List F32) (hp : p.val < s.anchors.length) :
    ∃ f a, s.publishFull n p v params = (f, s.put p a) ∧ a.version = v ∧ Carries n s S p a f := by
  unfold DownlinkAnchors.publishFull
  split
  · exact ⟨_, ⟨v, params, _, 0⟩, rfl, rfl, .full⟩
  · next hnone => exact absurd (getElem?_eq_none_iff.1 hnone) (Nat.not_le.2 hp)

/-- A call sends a frame of the anchor it leaves, and moves no other. -/
theorem call_carries (hdigests : w.syncer.Digests n) (hp : c.fragment.val < w.syncer.anchors.length)
    (hsafe : c.Safe w.syncer S) :
    ∃ f a, (w.call n c).sent.getLast? = some f ∧ (w.call n c).syncer.anchor c.fragment = some a
      ∧ (∀ q ≠ c.fragment, (w.call n c).syncer.anchor q = w.syncer.anchor q)
      ∧ a.version = c.version ∧ Carries n w.syncer S c.fragment a f := by
  have hput : ∀ {f a}, (w.syncer.put c.fragment a).anchor c.fragment = some a
      ∧ (∀ q ≠ c.fragment, (w.syncer.put c.fragment a).anchor q = w.syncer.anchor q)
      ∧ (w.sent ++ [f]).getLast? = some f := by
    intro f a
    refine ⟨?_, fun q hq => ?_, getLast?_concat⟩
    · rw [DownlinkAnchors.anchor_put, if_pos ⟨rfl, hp⟩]
    · rw [DownlinkAnchors.anchor_put, if_neg fun h => hq h.1]
  cases c with
  | publish p v params =>
    obtain ⟨f, a, hpub, hv, hcarries⟩ := publish_carries (p := p) (n := n) hp hsafe
    obtain ⟨hself, hother, hlast⟩ := hput (f := f) (a := a)
    simp only [Session.call, hpub]
    exact ⟨f, a, hlast, hself, hother, hv, hcarries⟩
  | publishFull p v params =>
    obtain ⟨f, a, hpub, hv, hcarries⟩ := publishFull_carries (n := n)
      (p := p) (v := v) (S := S) params hp
    obtain ⟨hself, hother, hlast⟩ := hput (f := f) (a := a)
    simp only [Session.call, hpub]
    exact ⟨f, a, hlast, hself, hother, hv, hcarries⟩
  | resend p v params =>
    obtain ⟨a, ha, rfl⟩ := hsafe
    refine ⟨_, a, getLast?_concat, ha, fun _ _ => rfl, rfl, ?_⟩
    have hframe : w.syncer.resend n p a.version params
        = ⟨encodeHead p a.version kindFull a.version (digestF32 n a.values), .f32, a.values⟩ := by
      simp [DownlinkAnchors.resend, DownlinkAnchors.anchoredFull, Option.mem_def.1 ha,
        hdigests p a ha]
    rw [hframe]
    exact .full

theorem digests_call (h : w.syncer.Digests n) (c : Call) : (w.call n c).syncer.Digests n := by
  cases c with
  | publish p v params =>
    dsimp only [Session.call]
    split
    · exact h
    · next hpub => exact (DownlinkAnchors.publish_spec h hpub).1
  | publishFull p v params => exact (DownlinkAnchors.publishFull_spec h rfl).1
  | resend p v params => exact h

theorem learner_call (w : Session) (c : Call) :
    (w.call n c).learner = w.learner ∧ (w.call n c).numels = w.numels := by
  cases c with
  | publish p v params =>
    dsimp only [Session.call]
    split <;> exact ⟨rfl, rfl⟩
  | publishFull p v params => exact ⟨rfl, rfl⟩
  | resend p v params => exact ⟨rfl, rfl⟩

end Calls

/-- The learner holds the anchor of the syncer. -/
def Session.InStep (w : Session) (p : U32) : Prop :=
  ∃ a, w.syncer.anchor p = some a ∧ w.numels[p.val]? = some a.values.length
    ∧ w.learner.heldAt p.val = some ⟨a.version.val, a.values⟩

/-- A call of the syncer, and the way its frame goes. -/
structure Delivery where
  call : Call
  way : Way

/-- The frame of a call arrives before anything else happens. -/
def Session.deliver (n : Numerics) (w : Session) (d : Delivery) : Option Session :=
  let sent := w.call n d.call
  sent.sent.getLast?.bind fun f => sent.takes n (d.way.arrival f)

/-- What a delivery asks, with the learner in step on `S`. -/
def Delivery.Fits (n : Numerics) (S : List U32) (w : Session) (d : Delivery) : Prop :=
  let p := d.call.fragment
  let sent := w.call n d.call
  d.call.Safe w.syncer S
    -- both sides know the fragment, and its versions do not go back
    ∧ p.val < w.syncer.anchors.length ∧ p.val < w.learner.held.length
    ∧ (∀ h ∈ w.learner.heldAt p.val, h.version ≤ d.call.version.val)
    -- the new anchor is finite and of the length of the layout
    ∧ (∀ a ∈ sent.syncer.anchor p,
      w.numels[p.val]? = some a.values.length ∧ a.values.all isFinite = true)
    ∧ ∀ f ∈ sent.sent.getLast?, d.way.Covers (f.payload n).length

/-- Every delivery fits where its turn comes; each brings its fragment in
step. -/
def Ready (n : Numerics) : List U32 → Session → List Delivery → Prop
  | _, _, [] => True
  | S, w, d :: ds => d.Fits n S w ∧ ∀ w' ∈ w.deliver n d, Ready n (d.call.fragment :: S) w' ds

instance decidableSafe (s : DownlinkAnchors) (S : List U32) : ∀ c : Call, Decidable (c.Safe s S)
  | .publish .. => inferInstanceAs (Decidable (_ ∨ _))
  | .publishFull .. => .isTrue trivial
  | .resend p v _ => inferInstanceAs (Decidable (∃ a ∈ s.anchor p, a.version = v))

instance decidableCovers (length : Nat) : ∀ way : Way, Decidable (way.Covers length)
  | .whole => .isTrue trivial
  | .chunks _ cuts => inferInstanceAs (Decidable (length ≤ cuts.sum))

instance decidableFits (n : Numerics) (S : List U32) (w : Session) (d : Delivery) :
    Decidable (d.Fits n S w) := by
  unfold Delivery.Fits
  infer_instance

instance decidableReady (n : Numerics) : ∀ (S : List U32) (w : Session) (ds : List Delivery),
    Decidable (Ready n S w ds)
  | _, _, [] => .isTrue trivial
  | S, _, d :: ds =>
    have (w' : Session) := decidableReady n (d.call.fragment :: S) w' ds
    inferInstanceAs (Decidable (_ ∧ _))

section Run

variable {S : List U32} {p : U32}

theorem begin_full (s : LearnerAnchors) (base : U64) (digest : List UInt8) :
    s.begin fid ver (kindFull :: (le 8 base.val ++ digest)) numel
      = .ok (.new fid ver kindFull [] digest numel) := by
  unfold LearnerAnchors.begin
  simp [drop_left' (length_le 8 _)]

theorem begin_delta {base : U64} (digest : List UInt8)
    (hheld : s.heldAt fid = some ⟨base.val, x⟩) (hlen : x.length = numel) :
    s.begin fid ver (kindDelta :: (le 8 base.val ++ digest)) numel
      = .ok (.new fid ver kindDelta x digest numel) := by
  have hbase : ofLe (le 8 base.val) = base.val := ofLe_le_of_lt base.isLt
  unfold LearnerAnchors.begin
  simp [drop_left' (length_le 8 _), take_left' (length_le 8 _), hbase, hheld, hlen, kindDelta,
    kindFull]

/-- A frame made from what the learner holds is taken. -/
theorem Carries.takes {a : Anchor} (way : Way) (hround : Rounds n) (hS : ∀ q ∈ S, w.InStep q)
    (h : Carries n w.syncer S p a f) (hsame : w'.learner = w.learner ∧ w'.numels = w.numels)
    (hnumel : w.numels[p.val]? = some a.values.length) (hfinite : a.values.all isFinite = true)
    (hway : way.Covers (f.payload n).length) (hfit : p.val < w.learner.held.length)
    (hnew : ∀ h, w.learner.heldAt p.val = some h → h.version ≤ a.version.val) :
    ∃ w'', w'.takes n (way.arrival f) = some w'' ∧ Took w' p.val a.version.val a.values w'' := by
  rw [← hsame.1] at hfit hnew
  have hlayout : w'.numels[p.val]? = some a.values.length := by rw [hsame.2, hnumel]
  cases h with
  | full =>
    exact takes_arrival way rfl (n.length_sha256 _) hlayout (begin_full ..) (expects_full hfinite)
      hway hfit hnew
  | @delta b params delta hmem hanchor hlen hloop =>
    obtain ⟨b', hb', hbnumel, hheld⟩ := hS p hmem
    obtain rfl : b = b' := Option.some.inj (hanchor.symm.trans hb')
    have hbase : b.values.length = a.values.length := Option.some.inj (hbnumel.symm.trans hnumel)
    rw [← hsame.1] at hheld
    exact takes_arrival way rfl (n.length_sha256 _) hlayout (begin_delta _ hheld hbase)
      (expects_delta hround hlen hbase hloop hfinite) hway hfit hnew

/-- ONE DELIVERY raises nothing and brings its fragment in step. -/
theorem deliver_inStep {d : Delivery} (hround : Rounds n) (hdigests : w.syncer.Digests n)
    (hS : ∀ q ∈ S, w.InStep q) (hfits : d.Fits n S w) :
    ∃ w', w.deliver n d = some w' ∧ w'.syncer.Digests n
      ∧ ∀ q ∈ d.call.fragment :: S, w'.InStep q := by
  obtain ⟨hsafe, hp, hfit, hnew, hanchor, hway⟩ := hfits
  obtain ⟨f, a, hlast, ha, hother, hversion, hcarries⟩ := call_carries hdigests hp hsafe
  obtain ⟨hlearner, hnumels⟩ := learner_call (n := n) w d.call
  obtain ⟨hlayout, hfinite⟩ := hanchor a ha
  rw [← hversion] at hnew
  obtain ⟨w', htakes, htook⟩ := hcarries.takes d.way hround hS ⟨hlearner, hnumels⟩ hlayout hfinite
    (hway f hlast) hfit hnew
  refine ⟨w', by simp [Session.deliver, hlast, htakes], ?_, fun q hq => ?_⟩
  · rw [htook.syncer]
    exact digests_call hdigests d.call
  · by_cases hqp : q = d.call.fragment
    · subst hqp
      exact ⟨a, by rw [htook.syncer, ha], by rw [htook.numels, hnumels, hlayout], htook.held⟩
    · -- another fragment: neither side has moved
      obtain ⟨b, hb, hblayout, hbheld⟩ := hS q ((mem_cons.1 hq).resolve_left hqp)
      refine ⟨b, by rw [htook.syncer, hother q hqp, hb],
        by rw [htook.numels, hnumels, hblayout], ?_⟩
      rw [htook.others q.val fun h => hqp (Fin.ext h), hlearner, hbheld]

theorem deliveries_inStep {ds : List Delivery} (hround : Rounds n) (hdigests : w.syncer.Digests n)
    (hS : ∀ q ∈ S, w.InStep q) (hready : Ready n S w ds) :
    ∃ w', ds.foldlM (Session.deliver n) w = some w'
      ∧ ∀ q, q ∈ S ∨ q ∈ ds.map (·.call.fragment) → w'.InStep q := by
  induction ds generalizing S w with
  | nil => exact ⟨w, rfl, fun q hq => hS q (hq.resolve_right not_mem_nil)⟩
  | cons d ds ih =>
    obtain ⟨w₁, hdeliver, hdigests₁, hS₁⟩ := deliver_inStep hround hdigests hS hready.1
    obtain ⟨w', hrun, hstep⟩ := ih hdigests₁ hS₁ (hready.2 w₁ hdeliver)
    refine ⟨w', by rw [foldlM_cons, hdeliver]; exact hrun, fun q hq => hstep q ?_⟩
    rw [map_cons, mem_cons] at hq
    rw [mem_cons]
    tauto

/-- THE LEARNER FOLLOWS. Whatever was lost before, frames that arrive in
the order of their calls, cut anywhere, are all taken, and the learner holds
the anchor of the syncer, bit for bit, on every fragment they sent. -/
theorem learner_follows {fragments fullEvery : Nat} {numels : List Nat} {ds : List Delivery}
    (hround : Rounds n) (hw : (sessions n fragments fullEvery numels).Reachable w)
    (hS : ∀ p ∈ S, w.InStep p) (hready : Ready n S w ds) :
    ∃ w', ds.foldlM (Session.deliver n) w = some w'
      ∧ ∀ p, p ∈ S ∨ p ∈ ds.map (·.call.fragment) → w'.InStep p :=
  deliveries_inStep hround (sessionOk_reachable hw).digests hS hready

/-- Two publications of a fragment: the first goes out FULL and whole, the
second as a delta in three chunks. -/
def sampleDeliveries : List Delivery :=
  [⟨.publish 0 1 [1065353216, 1073741824], .whole⟩,
   ⟨.publish 0 2 [1065418752, 1073741824], .chunks 7 [20, 22, 30]⟩]

theorem learner_follows_sample : ∃ w', sampleDeliveries.foldlM (Session.deliver bitNumerics)
      (Session.start ⟨4, [none]⟩ [2]) = some w' ∧ w'.InStep 0 := by
  have hround : Rounds bitNumerics := by
    intro b _
    have hval : (widen b).val = b.val * 65536 := Nat.mod_eq_of_lt (by omega)
    have hround : ((widen b).val + 32767 + (widen b).val / 65536 % 2) / 65536 = b.val := by omega
    exact (congrArg (Fin.ofNat 65536) hround).trans (Fin.ofNat_val_eq_self b)
  have hready : Ready bitNumerics [] (Session.start ⟨4, [none]⟩ [2]) sampleDeliveries := by
    decide +kernel
  obtain ⟨w', hrun, hstep⟩ := learner_follows (S := []) hround
    (.init ⟨_, rfl, rfl⟩ : (sessions bitNumerics 1 4 [2]).Reachable (.start ⟨4, [none]⟩ [2]))
    nofun hready
  exact ⟨w', hrun, hstep 0 (.inr (by decide))⟩

end Run

end Yeto.Downlink
