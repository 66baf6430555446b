/-
What a push that passes its decode brings to the merge.

The two integer formats multiply the scale by a code the test does not look
at. So the values are finite exactly where, in every block, the scale times
the largest code PRESENT is below the overflow threshold of binary32
(`decoded_finite`), and nothing asks for that (`int8_scale_overflows`).
-/
import Yeto.Protocol.Push

namespace Yeto.Protocol

open Lib Downlink Server List Reader Binary32

variable {push : DecodedPush} {scale : F32} {fragment : FragmentInfo} {payload : List UInt8}
  {b block expected l len numel : Nat} {format : String} {dtype : UInt8}
  {negative : Bool} {lens : List Nat} {fuel : Nat}

theorem isFinite_signed {bits : Nat} (h : bits ≤ infinity) :
    isFinite (signed negative bits) = true ↔ bits < infinity := by
  have hval : (signed negative bits).val = bits + if negative then 2 ^ 31 else 0 := by
    unfold signed
    rw [Fin.val_ofNat, Nat.mod_eq_of_lt]
    unfold infinity at h
    split <;> omega
  unfold isFinite
  rw [hval, bne_iff_ne]
  unfold infinity at *
  split <;> omega

/-- A decoded value is finite exactly where its exact magnitude is below
`2^128 - 2^103`. -/
theorem Delta.isFinite_value (d : Delta) : isFinite d.value = true ↔ d.magnitude < limit 6 := by
  have hround : ∀ n negative, isFinite (signed negative (Binary32.round 6 n)) = true
        ↔ n < limit 6 := by
    intro n negative
    rw [isFinite_signed (round_le_infinity 6 n), round_lt_infinity_iff]
  cases d with
  | raw x =>
    have hmag := mag_lt_limit_iff x.val
    have hfinite : isFinite x = true ↔ x.val / 2 ^ 23 % 256 ≠ 255 := bne_iff_ne
    show isFinite x = true ↔ mag x.val * 2 ^ 6 < _
    rw [hfinite, ← hmag]
    unfold limit
    omega
  | code | level => exact hround _ _

theorem level_lt_limit (hl : l < 8) (h : isFinite scale = true) :
    (Delta.level negative l scale).magnitude < limit 6 := by
  have hmag := (mag_lt_limit_iff scale.val).2 (bne_iff_ne.1 h)
  have hlut : lut l ≤ 2 ^ 6 := by
    unfold lut
    split
    · exact Nat.zero_le _
    · exact Nat.pow_le_pow_right (by decide) (by omega)
  have hmul : lut l * mag scale.val ≤ 2 ^ 6 * mag scale.val := Nat.mul_le_mul_right _ hlut
  show lut l * mag scale.val < _
  unfold limit at *
  omega

/-- The largest magnitude among the codes of a block. -/
def peak (codes : List Int) : Nat := (codes.map Int.natAbs).foldr max 0

theorem peak_le {codes : List Int} {k : Nat} : peak codes ≤ k ↔ ∀ q ∈ codes, q.natAbs ≤ k := by
  unfold peak
  induction codes with
  | nil => exact ⟨fun _ => nofun, fun _ => Nat.zero_le k⟩
  | cons q codes ih => rw [map_cons, foldr_cons, max_le_iff, ih, forall_mem_cons]

/-- A number times a peak is below a limit exactly if it is below it times
every code. -/
theorem peak_mul_lt {codes : List Int} {m k : Nat} (hk : 0 < k) :
    peak codes * m < k ↔ ∀ q ∈ codes, q.natAbs * m < k := by
  rcases Nat.eq_zero_or_pos m with rfl | hm
  · simp [hk]
  · have hle (x : Nat) : x * m < k ↔ x ≤ (k - 1) / m := by
      rw [Nat.le_div_iff_mul_le hm]
      omega
    rw [hle, peak_le]
    exact forall₂_congr fun q _ => (hle _).symm

theorem code_lt_limit {q : Int} :
    (Delta.code q scale).magnitude < limit 6 ↔ q.natAbs * mag scale.val < limit 0 := by
  show q.natAbs * mag scale.val * 2 ^ 6 < _ ↔ _
  unfold limit
  omega

/-- The scale in front of a block. -/
def scaleAt (bytes : List UInt8) : F32 := Fin.ofNat _ (ofLe (bytes.take 4))

variable {s s' : List UInt8}

theorem blockScale_ok (h : blockScale format b s = .ok (scale, s')) :
    scale = scaleAt s ∧ s' = s.drop 4 ∧ isFinite scale = true := by
  obtain ⟨bits, s₁, hbits, h⟩ := bind_eq_ok h
  obtain ⟨⟨⟩, s₂, hensure, h⟩ := bind_eq_ok h
  obtain ⟨rfl, rfl⟩ := word_ok hbits
  obtain ⟨⟨hfinite, -⟩, rfl⟩ := ensure_ok hensure
  obtain ⟨rfl, rfl⟩ := pure_ok h
  exact ⟨rfl, rfl, hfinite⟩

/-- An integer format: the bytes of the codes of a block, and the codes. -/
structure CodeFormat where
  body : Nat → Nat
  codes : Nat → List UInt8 → List Int

def int8Codes : CodeFormat := ⟨fun len => len, fun _ body => body.map asI8⟩

def int4Codes : CodeFormat :=
  ⟨fun len => divCeil len 2, fun len body => ((nibbles body).take len).map asI4⟩

/-- A block: its scale and its codes. -/
structure CodeBlock where
  scale : F32
  codes : List Int

namespace CodeBlock

def values (k : CodeBlock) : List Delta := k.codes.map (.code · k.scale)

/-- The scale times the largest code is below the overflow threshold. -/
def fits (k : CodeBlock) : Bool := decide (peak k.codes * mag k.scale.val < limit 0)

theorem fits_iff {k : CodeBlock} :
    k.fits = true ↔ ∀ d ∈ k.values, d.magnitude < Binary32.limit 6 := by
  have hpos : 0 < limit 0 := by
    unfold limit
    omega
  unfold fits values
  rw [decide_eq_true_iff, peak_mul_lt hpos, forall_mem_map]
  exact forall₂_congr fun q _ => code_lt_limit.symm

end CodeBlock

/-- The block of `len` values that the bytes begin with. -/
def CodeFormat.blockAt (c : CodeFormat) (len : Nat) (bytes : List UInt8) : CodeBlock :=
  ⟨scaleAt bytes, c.codes len ((bytes.drop 4).take (c.body len))⟩

/-- What the decode of a block gives. -/
structure BlockRead (c : CodeFormat) (len : Nat) (bytes rest : List UInt8)
    (values : List Delta) : Prop where
  rest : rest = bytes.drop (4 + c.body len)
  length : values.length = len
  values : values = (c.blockAt len bytes).values

variable {values : List Delta} {bytes rest : List UInt8}

theorem i8Block_ok (h : i8Block b len bytes = .ok (values, rest)) :
    BlockRead int8Codes len bytes rest values := by
  obtain ⟨scale, s₁, hscale, h⟩ := bind_eq_ok h
  obtain ⟨body, s₂, hbody, h⟩ := bind_eq_ok h
  obtain ⟨⟨⟩, s₃, hensure, h⟩ := bind_eq_ok h
  obtain ⟨rfl, rfl, -⟩ := blockScale_ok hscale
  obtain ⟨rfl, rfl, hlen⟩ := take_ok hbody
  obtain ⟨-, rfl⟩ := ensure_ok hensure
  obtain ⟨rfl, rfl⟩ := pure_ok h
  refine ⟨drop_drop, by rw [length_map, hlen], ?_⟩
  exact (map_map (g := (Delta.code · _)) ..).symm

theorem length_nibbles {body : List UInt8} : (nibbles body).length = 2 * body.length := by
  unfold nibbles
  induction body with
  | nil => rfl
  | cons byte body ih =>
    rw [flatMap_cons, length_append, ih]
    simp only [length_cons, length_nil]
    omega

theorem i4Block_ok (h : i4Block b len bytes = .ok (values, rest)) :
    BlockRead int4Codes len bytes rest values := by
  obtain ⟨scale, s₁, hscale, h⟩ := bind_eq_ok h
  obtain ⟨body, s₂, hbody, h⟩ := bind_eq_ok h
  obtain ⟨⟨⟩, s₃, hensure, h⟩ := bind_eq_ok h
  obtain ⟨⟨⟩, s₄, hpad, h⟩ := bind_eq_ok h
  obtain ⟨rfl, rfl, -⟩ := blockScale_ok hscale
  obtain ⟨rfl, rfl, hlen⟩ := take_ok hbody
  obtain ⟨-, rfl⟩ := ensure_ok hensure
  obtain ⟨-, rfl⟩ := ensure_ok hpad
  obtain ⟨rfl, rfl⟩ := pure_ok h
  refine ⟨drop_drop, ?_, ?_⟩
  · rw [length_map, length_take, length_nibbles, hlen]
    unfold divCeil
    omega
  · exact (map_map (g := (Delta.code · _)) ..).symm

structure LevelBlock (len : Nat) (values : List Delta) : Prop where
  length : values.length = len
  levels : ∀ d ∈ values, d.magnitude < Binary32.limit 6

theorem q4Block_ok (hle : len ≤ Q4_BLOCK) (h : q4Block b len bytes = .ok (values, rest)) :
    LevelBlock len values := by
  obtain ⟨scale, s₁, hscale, h⟩ := bind_eq_ok h
  obtain ⟨body, s₂, hbody, h⟩ := bind_eq_ok h
  obtain ⟨-, -, hfinite⟩ := blockScale_ok hscale
  obtain ⟨-, -, hlen⟩ := take_ok hbody
  obtain ⟨rfl, -⟩ := pure_ok h
  refine ⟨?_, fun d hd => ?_⟩
  · rw [length_map, length_take, length_nibbles, hlen]
    unfold Q4_BLOCK at *
    omega
  · obtain ⟨nibble, -, rfl⟩ := mem_map.1 hd
    exact level_lt_limit (Nat.mod_lt _ (by decide)) hfinite

theorem sum_blockLens (hblock : 0 < block) :
    ∀ {remaining : Nat}, remaining ≤ fuel → (blockLens block fuel remaining).sum = remaining := by
  induction fuel with intro remaining h
  | zero => exact (Nat.le_zero.1 h).symm
  | succ fuel ih =>
    unfold blockLens
    split
    · rw [sum_cons, ih (by omega)]
      omega
    · next hzero => exact (Nat.eq_zero_of_not_pos hzero).symm

theorem blockLens_le : ∀ {remaining : Nat},
    ∀ len ∈ blockLens block fuel remaining, len ≤ block := by
  induction fuel with
  | zero => nofun
  | succ fuel ih =>
    intro remaining len hlen
    unfold blockLens at hlen
    split at hlen
    · rcases mem_cons.1 hlen with rfl | hlen
      · exact Nat.min_le_right _ _
      · exact ih len hlen
    · cases hlen

theorem sum_segmentBlocks (hblock : 0 < block) {segments : List Nat} :
    (segmentBlocks block segments).sum = segments.sum := by
  unfold segmentBlocks
  induction segments with
  | nil => rfl
  | cons n segments ih =>
    rw [flatMap_cons, sum_append, ih, sum_blockLens hblock (le_refl n), sum_cons]

/-- The blocks of these lengths, one after the other. -/
def CodeFormat.blocks (c : CodeFormat) : List Nat → List UInt8 → List CodeBlock
  | [], _ => []
  | len :: lens, bytes => c.blockAt len bytes :: c.blocks lens (bytes.drop (4 + c.body len))

section Blocks

variable {one : Nat → Nat → Reader (List Delta)}

/-- Blocks of an integer format: one value for each code, with the scale of
its block. -/
theorem decodeBlocks_codes {c : CodeFormat}
    (hone : ∀ {b len bytes values rest}, one b len bytes = .ok (values, rest) →
      BlockRead c len bytes rest values) :
    ∀ {b : Nat} {bytes rest : List UInt8} {values : List Delta},
      decodeBlocks one b lens bytes = .ok (values, rest) →
      values.length = lens.sum ∧ values = (c.blocks lens bytes).flatMap CodeBlock.values := by
  induction lens with intro b bytes rest values h
  | nil =>
    obtain ⟨rfl, -⟩ := pure_ok h
    exact ⟨rfl, rfl⟩
  | cons len lens ih =>
    obtain ⟨first, s₁, hfirst, h⟩ := bind_eq_ok h
    obtain ⟨others, s₂, hothers, h⟩ := bind_eq_ok h
    obtain ⟨rfl, -⟩ := pure_ok h
    obtain ⟨rfl, hlen, hvalues⟩ := hone hfirst
    obtain ⟨hlens, hrest⟩ := ih hothers
    refine ⟨by rw [length_append, hlen, hlens, sum_cons], ?_⟩
    rw [CodeFormat.blocks, flatMap_cons, ← hvalues, ← hrest]

theorem LevelBlock.append {k : Nat} {xs ys : List Delta} (hx : LevelBlock k xs)
    (hy : LevelBlock l ys) : LevelBlock (k + l) (xs ++ ys) where
  length := by rw [length_append, hx.length, hy.length]
  levels d hd := (mem_append.1 hd).elim (hx.levels d) (hy.levels d)

theorem decodeBlocks_levels :
    (∀ len ∈ lens, len ≤ Q4_BLOCK) → ∀ {b : Nat} {bytes rest : List UInt8} {values : List Delta},
      decodeBlocks q4Block b lens bytes = .ok (values, rest) → LevelBlock lens.sum values := by
  induction lens with
  | nil =>
    intro _ b bytes rest values h
    obtain ⟨rfl, -⟩ := pure_ok h
    exact ⟨rfl, nofun⟩
  | cons len lens ih =>
    intro hlens b bytes rest values h
    obtain ⟨hlen, hlens⟩ := forall_mem_cons.1 hlens
    obtain ⟨first, s₁, hfirst, h⟩ := bind_eq_ok h
    obtain ⟨others, s₂, hothers, h⟩ := bind_eq_ok h
    obtain ⟨rfl, -⟩ := pure_ok h
    exact (q4Block_ok hlen hfirst).append (ih hlens hothers)

theorem decodeQ4Append_levels {segments : List Nat} :
    ∀ {bytes rest : List UInt8} {values : List Delta},
      decodeQ4Append segments bytes = .ok (values, rest) → LevelBlock segments.sum values := by
  induction segments with intro bytes rest values h
  | nil =>
    obtain ⟨rfl, -⟩ := pure_ok h
    exact ⟨rfl, nofun⟩
  | cons n segments ih =>
    obtain ⟨first, s₁, hfirst, h⟩ := bind_eq_ok h
    obtain ⟨others, s₂, hothers, h⟩ := bind_eq_ok h
    obtain ⟨rfl, -⟩ := pure_ok h
    have hlevels := decodeBlocks_levels blockLens_le hfirst
    rw [sum_blockLens (by decide) (le_refl n)] at hlevels
    exact hlevels.append (ih hothers)

end Blocks

/-- The integer format of a dtype, if it has one. -/
def codeFormat (dtype : UInt8) : Option CodeFormat :=
  let base := sessionBase dtype
  if base = DTYPE_F32_PUSH_I8 then some int8Codes
  else if base = DTYPE_F32_PUSH_I4 then some int4Codes
  else none

/-- The blocks of a payload of an integer format: the block size, then the
blocks. -/
def CodeFormat.payloadBlocks (c : CodeFormat) (segments : List Nat) (bytes : List UInt8) :
    List CodeBlock :=
  c.blocks (segmentBlocks (ofLe (bytes.take 4)) segments) (bytes.drop 4)

/-- In every block the scale times the largest code is below the overflow
threshold. -/
def scalesFit (dtype : UInt8) (segments : List Nat) (bytes : List UInt8) : Bool :=
  (codeFormat dtype).all fun c => (c.payloadBlocks segments bytes).all CodeBlock.fits

/-- What the decode of a payload gives. -/
structure DecodedOk (fit : Bool) (numel : Nat) (values : List Delta) : Prop where
  length : values.length = numel
  below : fit = true ↔ ∀ d ∈ values, d.magnitude < Binary32.limit 6

theorem map_fst_ok {α β : Type} {e : Except String (α × β)} {a : α}
    (h : e.map Prod.fst = .ok a) : ∃ b, e = .ok (a, b) := by
  cases e with
  | error m => cases h
  | ok x =>
    cases h
    exact ⟨x.2, rfl⟩

variable {segments : List Nat}

theorem decodeCodes_ok {nbytes : List Nat → Nat → Except String Nat}
    {one : Nat → Nat → Reader (List Delta)} {c : CodeFormat}
    (hone : ∀ {b len bytes values rest}, one b len bytes = .ok (values, rest) →
      BlockRead c len bytes rest values)
    (hblock : ∀ {block expected}, nbytes segments block = .ok expected → 0 < block)
    (h : decodeCodes format nbytes one bytes segments = .ok values) :
    DecodedOk ((c.payloadBlocks segments bytes).all CodeBlock.fits) segments.sum values := by
  unfold decodeCodes at h
  split at h
  · cases h
  dsimp only at h
  split at h
  · cases h
  next expected hbytes =>
  split at h
  · cases h
  obtain ⟨rest, hdecode⟩ := map_fst_ok h
  obtain ⟨hlen, rfl⟩ := decodeBlocks_codes hone hdecode
  refine ⟨hlen.trans (sum_segmentBlocks (hblock hbytes)), ?_⟩
  rw [all_eq_true, forall_mem_flatMap]
  exact forall₂_congr fun k _ => CodeBlock.fits_iff

theorem i8Nbytes_block (h : i8NbytesSegments segments block = .ok expected) : 0 < block := by
  obtain ⟨hblock, h⟩ := of_else_error h
  exact lt_of_lt_of_le (by decide) hblock.1

theorem i4Nbytes_block (h : i4NbytesSegments segments block = .ok expected) : 0 < block := by
  obtain ⟨hblock, h⟩ := of_else_error h
  exact lt_of_lt_of_le (by decide) hblock.1.1

theorem length_words (width : Nat) : ∀ (count : Nat) (bytes : List UInt8),
    (words width count bytes).length = count
  | 0, _ => rfl
  | count + 1, _ => congrArg (· + 1) (length_words width count _)

theorem finiteOnly_ok {values out : List F32} (h : finiteOnly values = .ok out) :
    out = values ∧ ∀ x ∈ out, isFinite x = true := by
  obtain ⟨hall, ⟨⟩⟩ := of_then_error h
  refine ⟨rfl, fun x hx => ?_⟩
  by_contra hx'
  exact hall (any_eq_true.2 ⟨x, hx, by simpa using hx'⟩)

theorem decodeTensor_ok {values : List F32} (hbytes : tensorNbytes dtype numel = .ok bytes.length)
    (h : decodeTensor dtype bytes = .ok values) :
    values.length = numel ∧ ∀ x ∈ values, isFinite x = true := by
  have hchecked : ∀ {k : Nat}, orOverflow "tensor byte length overflow"
      (checked k) = .ok bytes.length → bytes.length = k := by
    intro k hk
    unfold checked at hk
    split at hk <;> cases hk
    rfl
  unfold decodeTensor at h
  unfold tensorNbytes at hbytes
  split at h
  · next hf32 =>
    rw [if_pos hf32] at hbytes
    have hlen := hchecked hbytes
    split at h
    · cases h
    · obtain ⟨rfl, hfinite⟩ := finiteOnly_ok h
      refine ⟨?_, hfinite⟩
      rw [length_map, length_words]
      omega
  · next hf32 =>
    rw [if_neg hf32] at hbytes
    obtain ⟨hbf16, h⟩ := of_else_error h
    rw [if_pos hbf16] at hbytes
    have hlen := hchecked hbytes
    split at h
    · cases h
    · obtain ⟨rfl, hfinite⟩ := finiteOnly_ok h
      refine ⟨?_, hfinite⟩
      rw [length_map, length_words]
      omega

/-- A payload that passes has one value for each element; they are all finite
exactly if the scales fit. -/
theorem decodePushSegments_ok (h : decodePushSegments dtype bytes segments = .ok values) :
    DecodedOk (scalesFit dtype segments bytes) segments.sum values := by
  unfold decodePushSegments at h
  unfold scalesFit codeFormat
  dsimp only at h ⊢
  split at h
  · next hq4 =>
    unfold decodeQ4Segments at h
    split at h
    · cases h
    split at h
    · cases h
    obtain ⟨rest, hdecode⟩ := map_fst_ok h
    have hlevels := decodeQ4Append_levels hdecode
    refine ⟨hlevels.length, iff_of_true ?_ hlevels.levels⟩
    rcases hq4 with hq4 | hq4 <;> rw [hq4] <;> rfl
  split at h
  · next hi8 =>
    rw [if_pos hi8]
    exact decodeCodes_ok i8Block_ok i8Nbytes_block h
  next hi8 =>
  rw [if_neg hi8]
  split at h
  · next hi4 =>
    rw [if_pos hi4]
    exact decodeCodes_ok i4Block_ok i4Nbytes_block h
  next hi4 =>
  split at h
  · cases h
  next expected hexpected =>
  split at h
  · cases h
  next hlen =>
  rw [not_not] at hlen
  cases htensor : decodeTensor (pushDtype (sessionBase dtype)) bytes with rw [htensor] at h
  | error e => cases h
  | ok xs =>
    cases h
    obtain ⟨hxs, hfinite⟩ := decodeTensor_ok (hlen ▸ hexpected) htensor
    refine ⟨by rw [length_map, hxs], iff_of_true ?_ fun d hd => ?_⟩
    · rw [if_neg hi4]
      rfl
    obtain ⟨x, hx, rfl⟩ := mem_map.1 hd
    exact (Delta.isFinite_value _).1 (hfinite x hx)

theorem expertTag_rest {i : Nat} {scale : TensorScale}
    (h : expertTag i s = .ok (scale, s')) : s' = s.drop 20 := by
  obtain ⟨routed, s₁, hrouted, h⟩ := bind_eq_ok h
  obtain ⟨layer, s₂, hlayer, h⟩ := bind_eq_ok h
  obtain ⟨experts, s₃, hexperts, h⟩ := bind_eq_ok h
  obtain ⟨-, rfl⟩ := word_ok hrouted
  obtain ⟨-, rfl⟩ := word_ok hlayer
  obtain ⟨-, rfl⟩ := word_ok hexperts
  rw [drop_drop, drop_drop] at h
  split at h <;> obtain ⟨⟨⟩, s₄, hensure, h⟩ := bind_eq_ok h
  · obtain ⟨-, rfl⟩ := ensure_ok hensure
    exact (pure_ok h).2
  · obtain ⟨-, rfl⟩ := ensure_ok hensure
    split at h <;> exact (pure_ok h).2

theorem expertTags_ok {n : Nat} : ∀ {i : Nat} {s s' : List UInt8}
    {scales : List TensorScale}, expertTags i n s = .ok (scales, s') →
    scales.length = n ∧ s' = s.drop (20 * n) := by
  induction n with intro i s s' scales h
  | zero =>
    obtain ⟨rfl, rfl⟩ := pure_ok h
    exact ⟨rfl, rfl⟩
  | succ n ih =>
    obtain ⟨scale, s₁, hscale, h⟩ := bind_eq_ok h
    obtain ⟨rest, s₂, hrest, h⟩ := bind_eq_ok h
    obtain ⟨rfl, rfl⟩ := pure_ok h
    obtain rfl := expertTag_rest hscale
    obtain ⟨hlen, rfl⟩ := ih hrest
    refine ⟨congrArg (· + 1) hlen, ?_⟩
    rw [drop_drop, Nat.mul_succ, Nat.add_comm]

def tagBytes (session : Session) (fragment : FragmentInfo) : Nat :=
  if session.expertTokens then 4 + 20 * fragment.tensorNumels.length else 0

variable {session : Session}

theorem sessionTags_ok {scales : Option (List TensorScale)}
    (h : sessionTags session fragment s = .ok (scales, s')) : scales.map List.length
        = (if session.expertTokens then some fragment.tensorNumels.length
          else none) ∧ s' = s.drop (tagBytes session fragment) := by
  unfold sessionTags at h
  unfold tagBytes
  split at h
  · next htokens =>
    rw [if_pos htokens, if_pos htokens]
    obtain ⟨tags, s₁, htags, h⟩ := bind_eq_ok h
    obtain ⟨rfl, rfl⟩ := pure_ok h
    obtain ⟨n, s₂, hn, htags⟩ := bind_eq_ok htags
    obtain ⟨⟨⟩, s₃, hcount, htags⟩ := bind_eq_ok htags
    obtain ⟨left, s₄, hleft, htags⟩ := bind_eq_ok htags
    obtain ⟨⟨⟩, s₅, hroom, htags⟩ := bind_eq_ok htags
    obtain ⟨-, rfl⟩ := word_ok hn
    obtain ⟨rfl, rfl⟩ := ensure_ok hcount
    cases hleft
    obtain ⟨-, rfl⟩ := ensure_ok hroom
    obtain ⟨hlen, rfl⟩ := expertTags_ok htags
    exact ⟨congrArg some hlen, drop_drop⟩
  · next htokens =>
    rw [if_neg htokens, if_neg htokens]
    obtain ⟨rfl, rfl⟩ := pure_ok h
    exact ⟨rfl, rfl⟩

/-- The fragment id in a payload. -/
def fragmentOf (payload : List UInt8) : Nat := ofLe ((payload.drop 4).take 4)

/-- The delta of a payload: what follows its 48 bytes of header and its
tags. -/
def deltaBytes (session : Session) (fragment : FragmentInfo) (payload : List UInt8) : List UInt8 :=
  payload.drop (48 + tagBytes session fragment)

def segmentsOf (session : Session) (fragment : FragmentInfo) : List Nat :=
  pushSegments session.dtype fragment.numel fragment.tensorNumels

/-- Every block scale of the delta leaves room for the codes of its block. -/
def payloadFits (session : Session) (payload : List UInt8) : Bool :=
  (session.layout[fragmentOf payload]?).all fun fragment =>
    scalesFit session.dtype (segmentsOf session fragment) (deltaBytes session fragment payload)

/-- What the decode of a push checked. -/
structure Accepted (session : Session) (payload : List UInt8)
    (push : DecodedPush) (fragment : FragmentInfo) : Prop where
  learner : push.learnerId = session.member.learnerId
  attempt : push.roundAttempt ≠ 0
  steps : push.cSteps ≠ 0
  named : push.fragmentId = fragmentOf payload
  known : session.layout[push.fragmentId]? = some fragment
  scales : push.tensorScales.map List.length
    = if session.expertTokens then some fragment.tensorNumels.length else none
  delta : decodePushSegments session.dtype
    (deltaBytes session fragment payload) (segmentsOf session fragment) = .ok push.delta

theorem sumChecked_eq : ∀ {start total : Nat},
    sumChecked some start segments = some total → total = start + segments.sum := by
  unfold sumChecked
  induction segments with intro start total h
  | nil =>
    cases h
    rfl
  | cons n segments ih =>
    rw [foldlM_cons, Option.bind_some] at h
    unfold checked at h
    split at h
    · rw [sum_cons, ih h]
      omega
    · cases h

theorem checkedNumel_ok (h : checkedNumel fragment = .ok numel) : numel = fragment.numel := by
  unfold checkedNumel at h
  split at h
  · cases h
  next total htotal =>
  split at h
  · cases h
  cases h
  rw [sumChecked_eq htotal, Nat.zero_add]
  rfl

theorem decodePush_ok (h : decodePush session payload = .ok push) :
    ∃ fragment, Accepted session payload push fragment := by
  obtain ⟨left, h⟩ := map_fst_ok h
  obtain ⟨learnerId, s₁, hlearner, h⟩ := bind_eq_ok h
  obtain ⟨⟨⟩, s₂, hsame, h⟩ := bind_eq_ok h
  obtain ⟨fragmentId, s₃, hfragmentId, h⟩ := bind_eq_ok h
  obtain ⟨globalStep, s₄, hstep, h⟩ := bind_eq_ok h
  obtain ⟨roundAttempt, s₅, hattempt, h⟩ := bind_eq_ok h
  obtain ⟨⟨⟩, s₆, hpositive, h⟩ := bind_eq_ok h
  obtain ⟨baseVersion, s₇, hbase, h⟩ := bind_eq_ok h
  obtain ⟨localStep, s₈, hlocal, h⟩ := bind_eq_ok h
  obtain ⟨cSteps, s₉, hsteps, h⟩ := bind_eq_ok h
  obtain ⟨cTokens, s₁₀, htokens, h⟩ := bind_eq_ok h
  obtain ⟨⟨⟩, s₁₁, hworked, h⟩ := bind_eq_ok h
  obtain ⟨fragment, s₁₂, hfrag, h⟩ := bind_eq_ok h
  obtain ⟨numel, s₁₃, hnumel, h⟩ := bind_eq_ok h
  obtain ⟨scales, s₁₄, hscales, h⟩ := bind_eq_ok h
  obtain ⟨bytes, s₁₅, hbytes, h⟩ := bind_eq_ok h
  obtain ⟨delta, s₁₆, hdelta, h⟩ := bind_eq_ok h
  obtain ⟨rfl, -⟩ := pure_ok h
  -- What each read leaves, from the front of the payload to the delta.
  obtain ⟨-, rfl⟩ := word_ok hlearner
  obtain ⟨-, rfl⟩ := ensure_ok hsame
  obtain ⟨rfl, rfl⟩ := word_ok hfragmentId
  obtain ⟨-, rfl⟩ := word_ok hstep
  obtain ⟨-, rfl⟩ := word_ok hattempt
  obtain ⟨hattempted, rfl⟩ := ensure_ok hpositive
  obtain ⟨-, rfl⟩ := word_ok hbase
  obtain ⟨-, rfl⟩ := word_ok hlocal
  obtain ⟨-, rfl⟩ := word_ok hsteps
  obtain ⟨-, rfl⟩ := word_ok htokens
  obtain ⟨hstepped, rfl⟩ := ensure_ok hworked
  obtain ⟨hnamed, rfl⟩ := ofExcept_ok hfrag
  obtain ⟨hsum, rfl⟩ := ofExcept_ok hnumel
  obtain ⟨hlens, rfl⟩ := sessionTags_ok hscales
  cases hbytes
  obtain ⟨hvalues, -⟩ := ofExcept_ok hdelta
  simp only [drop_drop] at hvalues
  obtain rfl := checkedNumel_ok hsum
  have hknown : session.layout[fragmentOf payload]? = some fragment := by
    unfold fragmentOf
    split at hnamed
    · cases hnamed
    · next hsome => rw [hsome, Except.ok.inj hnamed]
  exact ⟨fragment, rfl, hattempted, hstepped, rfl, hknown, hlens, hvalues⟩

def DecodedPush.toPush (push : DecodedPush) : Push :=
  { learnerId := push.learnerId
    fragmentId := push.fragmentId
    globalStep := push.globalStep
    roundAttempt := push.roundAttempt
    baseVersion := push.baseVersion
    localStep := push.localStep
    cSteps := push.cSteps
    cTokens := push.cTokens
    gradient := push.outerGradient.length
    tensorScales := push.tensorScales.map List.length }

theorem sum_segmentsOf : (segmentsOf session fragment).sum = fragment.numel := by
  unfold segmentsOf pushSegments
  split
  · rfl
  · exact sum_singleton

/-- The scheduler may take what the decode of a push guarantees for
granted: `Push.decodes` is the test its model makes of a push. -/
theorem decodes_toPush {cfg : Config} (hlayout : session.layout = cfg.layout)
    (htokens : session.expertTokens = cfg.expertTokenWeights)
    (h : decodePush session payload = .ok push) :
    push.toPush.decodes cfg session.member = true := by
  obtain ⟨fragment, haccepted⟩ := decodePush_ok h
  have hlen := (decodePushSegments_ok haccepted.delta).length
  rw [sum_segmentsOf] at hlen
  have hknown := hlayout ▸ haccepted.known
  have hscales := htokens ▸ haccepted.scales
  simp [Push.decodes, DecodedPush.toPush, DecodedPush.outerGradient, hknown,
    haccepted.learner, hlen, hscales, Nat.pos_iff_ne_zero, haccepted.attempt,
    haccepted.steps]

/-- A value and its negation are finite together. -/
theorem isFinite_negate (x : F32) : isFinite (negate x) = isFinite x := by
  have hval : (negate x).val = x.val % 2 ^ 31 + if !isNegative x then 2 ^ 31 else 0 := by
    unfold negate signed
    rw [Fin.val_ofNat, Nat.mod_eq_of_lt]
    split <;> omega
  unfold isFinite
  rw [hval]
  congr 1
  split <;> omega

/-- FINITE EXACTLY WHERE THE SCALES FIT: the values of an accepted push are
below the overflow threshold, and what the merge gets is finite, exactly if
in every block of the payload the scale times the largest code is. -/
theorem decoded_finite (session : Session) (payload : List UInt8)
    (push : DecodedPush) (h : decodePush session payload = .ok push) :
    (∀ d ∈ push.delta, isFinite d.value = true ↔ d.magnitude < Binary32.limit 6)
      ∧ ((∀ d ∈ push.delta, d.magnitude < Binary32.limit 6)
        ↔ payloadFits session payload = true)
      ∧ ((∀ x ∈ push.outerGradient, isFinite x = true)
        ↔ payloadFits session payload = true) := by
  obtain ⟨fragment, haccepted⟩ := decodePush_ok h
  have hfits : payloadFits session payload = true
      ↔ ∀ d ∈ push.delta, d.magnitude < Binary32.limit 6 := by
    unfold payloadFits
    rw [← haccepted.named, haccepted.known]
    exact (decodePushSegments_ok haccepted.delta).below
  refine ⟨fun d _ => d.isFinite_value, hfits.symm, ?_⟩
  rw [hfits]
  refine forall_mem_map.trans (forall₂_congr fun d _ => ?_)
  rw [isFinite_negate, d.isFinite_value]

def int8Session : Session where
  member := ⟨0, 0⟩
  dtype := DTYPE_F32_PUSH_I8
  layout := [⟨[1], .avg⟩]
  expertTokens := false

def int8Payload (scale : Nat) : List UInt8 :=
  le 4 0 ++ le 4 0 ++ le 8 1 ++ le 4 1 ++ le 8 0 ++ le 8 1 ++ le 4 1 ++ le 8 1
    ++ (le 4 32 ++ le 4 scale ++ [2])

def int8Push (scale : F32) : DecodedPush where
  learnerId := 0
  fragmentId := 0
  globalStep := 1
  roundAttempt := 1
  baseVersion := 0
  localStep := 1
  cSteps := 1
  cTokens := 1
  delta := [.code 2 scale]
  tensorScales := none

/-- The code 2 of the scale 1.0 is 2.0. -/
theorem decoded_finite_two :
    decodePush int8Session (int8Payload 0x3f800000) = .ok (int8Push 0x3f800000)
      ∧ ∀ x ∈ (int8Push 0x3f800000).outerGradient, isFinite x = true := by
  have hpush : decodePush int8Session (int8Payload 0x3f800000) = .ok (int8Push 0x3f800000) := by
    rfl
  have hfits : payloadFits int8Session (int8Payload 0x3f800000) = true := by decide +kernel
  exact ⟨hpush, (decoded_finite _ _ _ hpush).2.2.2 hfits⟩

/-- A scheduler of that layout takes the push. -/
theorem decodes_toPush_two : ∃ cfg : Config, cfg.layout = int8Session.layout
      ∧ (int8Push 0x3f800000).toPush.decodes cfg int8Session.member = true := by
  have hpush : decodePush int8Session (int8Payload 0x3f800000) = .ok (int8Push 0x3f800000) := by rfl
  exact ⟨⟨⟨0, 1, 1, by decide, by decide⟩, int8Session.layout, 1, 1, 1, 0, 1, 1, none, .default,
    .equal, .streaming, false, false, none, false, 0, false, false, false, none, 1, 1, rfl⟩, rfl,
    decodes_toPush rfl rfl hpush⟩

/-- The largest finite f32 is an accepted scale, and the code 2 of it is an
infinity: the decode of the connection passes it on to the merge. -/
theorem int8_scale_overflows : decodePush int8Session (int8Payload 0x7f7fffff)
        = .ok (int8Push 0x7f7fffff) ∧ ¬ (Delta.code 2 0x7f7fffff).magnitude < Binary32.limit 6
      ∧ (int8Push 0x7f7fffff).outerGradient.map isFinite = [false] :=
  ⟨by rfl, by decide +kernel, by decide +kernel⟩

end Yeto.Protocol
