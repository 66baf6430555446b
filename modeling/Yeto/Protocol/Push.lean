/-
A PUSH_FRAGMENT from the wire to the scheduler: the codecs of the learner
deltas (`syncer/src/protocol.rs`) and the arm of `dispatch_inner` in
`syncer/src/server.rs` that decodes one.

A decoded value is kept as what the syncer multiplies (`Delta`), so that its
exact magnitude can be read next to the f32 the source computes. The loops over
`at` read one block after the other. The merge scale of a tensor stays the
three integers of its f64 quotient.
-/
import Yeto.Lib.Binary32
import Yeto.Downlink.Model
import Yeto.Server.Rounds

namespace Yeto.Protocol

open Lib Downlink Server

def DTYPE_F32 : UInt8 := 1
def DTYPE_BF16 : UInt8 := 2
def DTYPE_Q4 : UInt8 := 3
def DTYPE_F32_PUSH_BF16 : UInt8 := 4
def DTYPE_F32_PUSH_I8 : UInt8 := 5
def DTYPE_F32_PUSH_Q4 : UInt8 := 6
def DTYPE_F32_PUSH_I4 : UInt8 := 7
def DTYPE_FLAG_BCAST_DELTA : UInt8 := 0x80
def DTYPE_FLAG_TENSOR_BLOCKS : UInt8 := 0x40

def sessionBase (dtype : UInt8) : UInt8 :=
  dtype &&& ~~~(DTYPE_FLAG_BCAST_DELTA ||| DTYPE_FLAG_TENSOR_BLOCKS)

/-- Whether push blocks restart at each tensor boundary of a fragment. -/
def tensorBlocks (dtype : UInt8) : Bool := dtype &&& DTYPE_FLAG_TENSOR_BLOCKS != 0

def pushDtype (dtype : UInt8) : UInt8 :=
  if sessionBase dtype = DTYPE_F32_PUSH_BF16 then DTYPE_BF16
  else sessionBase dtype

def checked (n : Nat) : Option Nat := if n < 2 ^ 64 then some n else none

def divCeil (n d : Nat) : Nat := (n + d - 1) / d

def orOverflow (message : String) : Option Nat → Except String Nat
  | some n => .ok n
  | none => .error message

def Q4_BLOCK : Nat := 256
def I8_BLOCK_MIN : Nat := 32
def I8_BLOCK_MAX : Nat := 2 ^ 20
def I4_BLOCK_MIN : Nat := 64
def I4_BLOCK_MAX : Nat := 256

def tensorNbytes (dtype : UInt8) (numel : Nat) : Except String Nat :=
  if dtype = DTYPE_F32 then
    orOverflow "tensor byte length overflow" (checked (numel * 4))
  else if dtype = DTYPE_BF16 then
    orOverflow "tensor byte length overflow" (checked (numel * 2))
  else .error s!"unknown tensor dtype {dtype}"

def sumChecked (size : Nat → Option Nat) (start : Nat) (segments : List Nat) : Option Nat :=
  segments.foldlM (fun sum n => (size n).bind fun k => checked (k + sum)) start

def q4Nbytes (numel : Nat) : Option Nat := checked (divCeil numel Q4_BLOCK * (4 + Q4_BLOCK / 2))

def q4NbytesSegments (segments : List Nat) : Except String Nat :=
  orOverflow "q4 tensor byte length overflow" (sumChecked q4Nbytes 0 segments)

def i8NbytesSegments (segments : List Nat) (block : Nat) : Except String Nat :=
  if I8_BLOCK_MIN ≤ block ∧ block ≤ I8_BLOCK_MAX then
    orOverflow "int8 tensor byte length overflow"
      (sumChecked (fun n => (checked (divCeil n block * 4)).bind fun k =>
        checked (k + n)) 4 segments)
  else .error s!"int8 block size {block} outside 32..=1048576"

/-- Blocks are even, so only a segment's last block can be odd. -/
def i4NbytesSegments (segments : List Nat) (block : Nat) : Except String Nat :=
  if (I4_BLOCK_MIN ≤ block ∧ block ≤ I4_BLOCK_MAX) ∧ block % 2 = 0 then
    orOverflow "int4 tensor byte length overflow"
      (sumChecked (fun n => (checked (divCeil n block * 4)).bind fun k =>
        (checked (k + n / block * (block / 2))).bind fun body =>
          checked (body + if n % block > 0 then divCeil (n % block) 2 else 0)) 4 segments)
  else .error s!"int4 block size {block} must be even and within 64..=256"

def signed (negative : Bool) (bits : Nat) : F32 :=
  Fin.ofNat _ (bits + if negative then 2 ^ 31 else 0)

def isNegative (x : F32) : Bool := decide (2 ^ 31 ≤ x.val)

def negate (x : F32) : F32 := signed (!isNegative x) (x.val % 2 ^ 31)

inductive Delta
  /-- A value of an unquantized tensor. -/
  | raw (x : F32)
  /-- `q as f32 * scale`. -/
  | code (q : Int) (scale : F32)
  /-- `LUT[level] * scale`, with the sign of the nibble. -/
  | level (negative : Bool) (l : Nat) (scale : F32)
deriving DecidableEq, Repr

/-- `2^6` times the value of a q4 level: `2^(level - 7)`, and 0 for 0. -/
def lut (l : Nat) : Nat := if l = 0 then 0 else 2 ^ (l - 1)

/-- The exact magnitude of a value, in units of `2^-155`. -/
def Delta.magnitude : Delta → Nat
  | .raw x => Binary32.mag x.val * 2 ^ 6
  | .code q scale => q.natAbs * Binary32.mag scale.val * 2 ^ 6
  | .level _ l scale => lut l * Binary32.mag scale.val

/-- The value as an f32: a product is rounded to the nearest. -/
def Delta.value : Delta → F32
  | .raw x => x
  | .code q scale =>
    signed (decide (q < 0) != isNegative scale) (Binary32.round 6 (Delta.code q scale).magnitude)
  | .level negative l scale =>
    signed (negative != isNegative scale)
      (Binary32.round 6 (Delta.level negative l scale).magnitude)

/-- The lengths of the blocks of a segment: `while remaining > 0`, `fuel`
times at most. -/
def blockLens (block : Nat) : Nat → Nat → List Nat
  | 0, _ => []
  | fuel + 1, remaining =>
    if remaining > 0 then
      min remaining block :: blockLens block fuel (remaining - min remaining block)
    else []

def decodeBlocks (one : Nat → Nat → Reader (List Delta)) : Nat → List Nat → Reader (List Delta)
  | _, [] => pure []
  | b, len :: lens => do
    let values ← one b len
    let rest ← decodeBlocks one (b + 1) lens
    pure (values ++ rest)

def blockScale (format : String) (b : Nat) : Reader F32 := do
  let bits ← Reader.word "payload truncated" 4
  let scale : F32 := Fin.ofNat _ bits
  -- A negative zero is not below zero.
  Reader.ensure (isFinite scale = true ∧ (isNegative scale = false ∨ Binary32.mag scale.val = 0))
    s!"{format} block {b} has invalid scale"
  pure scale

def asI8 (byte : UInt8) : Int := if byte < 128 then byte.toNat else byte.toNat - 256

/-- A condition on every byte is decided byte after byte. -/
local instance (priority := 1100) decidableBytes (p : UInt8 → Prop)
    [DecidablePred p] (l : List UInt8) : Decidable (∀ q ∈ l, p q) := List.decidableBAll p l

def i8Block (b len : Nat) : Reader (List Delta) := do
  let scale ← blockScale "int8" b
  let body ← Reader.take "payload truncated" len
  Reader.ensure (∀ q ∈ body, asI8 q ≠ -128)
    s!"int8 block {b} uses the reserved value -128"
  pure (body.map fun q => .code (asI8 q) scale)

/-- The nibbles of a body, low nibble first. -/
def nibbles (body : List UInt8) : List Nat :=
  body.flatMap fun byte => [byte.toNat % 16, byte.toNat / 16]

def asI4 (nibble : Nat) : Int := if nibble < 8 then nibble else nibble - 16

def i4Block (b len : Nat) : Reader (List Delta) := do
  let scale ← blockScale "int4" b
  let body ← Reader.take "payload truncated" (divCeil len 2)
  let codes := (nibbles body).take len
  Reader.ensure (∀ nibble ∈ codes, nibble ≠ 8)
    s!"int4 block {b} uses the reserved value -8"
  Reader.ensure (∀ nibble ∈ (nibbles body).drop len, nibble = 0)
    s!"int4 block {b} has a non-zero pad nibble"
  pure (codes.map fun nibble => .code (asI4 nibble) scale)

/-- A q4 block is padded to `Q4_BLOCK` values; the first `len` count. -/
def q4Block (b len : Nat) : Reader (List Delta) := do
  let scale ← blockScale "q4" b
  let body ← Reader.take "payload truncated" (Q4_BLOCK / 2)
  pure (((nibbles body).take len).map fun nibble =>
    .level (decide (8 ≤ nibble)) (nibble % 8) scale)

def segmentBlocks (block : Nat) (segments : List Nat) : List Nat :=
  segments.flatMap fun n => blockLens block n n

/-- A payload of an integer format: the block size, then the blocks. -/
def decodeCodes (format : String) (nbytes : List Nat → Nat → Except String Nat)
    (one : Nat → Nat → Reader (List Delta)) (bytes : List UInt8)
    (segments : List Nat) : Except String (List Delta) :=
  if bytes.length < 4 then
    .error s!"{format} payload is shorter than its block header"
  else
    let block := ofLe (bytes.take 4)
    match nbytes segments block with
    | .error e => .error e
    | .ok expected =>
      if bytes.length ≠ expected then
        .error (s!"{format} payload has {bytes.length} bytes, expected "
          ++ s!"{expected} for {segments.sum} values in blocks of {block}")
      else
        (decodeBlocks one 0 (segmentBlocks block segments) (bytes.drop 4)).map Prod.fst

def decodeI8Segments : List UInt8 → List Nat → Except String (List Delta) :=
  decodeCodes "int8" i8NbytesSegments i8Block

def decodeI4Segments : List UInt8 → List Nat → Except String (List Delta) :=
  decodeCodes "int4" i4NbytesSegments i4Block

/-- One segment after the other; the blocks of each are counted from 0. -/
def decodeQ4Append : List Nat → Reader (List Delta)
  | [] => pure []
  | n :: segments => do
    let values ← decodeBlocks q4Block 0 (blockLens Q4_BLOCK n n)
    let rest ← decodeQ4Append segments
    pure (values ++ rest)

def decodeQ4Segments (bytes : List UInt8) (segments : List Nat) : Except String (List Delta) :=
  match q4NbytesSegments segments with
  | .error e => .error e
  | .ok expected =>
    if bytes.length ≠ expected then
      .error (s!"q4 payload has {bytes.length} bytes, expected {expected} "
        ++ s!"for {segments.sum} values")
    else (decodeQ4Append segments bytes).map Prod.fst

/-- `chunks_exact(width)`, as little-endian words. -/
def words (width : Nat) : Nat → List UInt8 → List Nat
  | 0, _ => []
  | count + 1, bytes => ofLe (bytes.take width) :: words width count (bytes.drop width)

def finiteOnly (values : List F32) : Except String (List F32) :=
  if values.any fun x => !isFinite x then
    .error "tensor payload contains a non-finite value"
  else .ok values

def decodeTensor (dtype : UInt8) (bytes : List UInt8) : Except String (List F32) :=
  if dtype = DTYPE_F32 then
    if bytes.length % 4 ≠ 0 then
      .error "f32 tensor byte length not divisible by 4"
    else
      finiteOnly ((words 4 (bytes.length / 4) bytes).map fun bits =>
        Fin.ofNat _ bits)
  else if dtype = DTYPE_BF16 then
    if bytes.length % 2 ≠ 0 then
      .error "bf16 tensor byte length not divisible by 2"
    else
      finiteOnly ((words 2 (bytes.length / 2) bytes).map fun bits =>
        Fin.ofNat _ (bits * 2 ^ 16))
  else .error s!"unknown dtype {dtype}"

/-- The value runs whose blocks restart independently. -/
def pushSegments (dtype : UInt8) (numel : Nat) (tensorNumels : List Nat) : List Nat :=
  if tensorBlocks dtype then tensorNumels else [numel]

def decodePushSegments (dtype : UInt8) (bytes : List UInt8)
    (segments : List Nat) : Except String (List Delta) :=
  let base := sessionBase dtype
  if base = DTYPE_Q4 ∨ base = DTYPE_F32_PUSH_Q4 then
    decodeQ4Segments bytes segments
  else if base = DTYPE_F32_PUSH_I8 then decodeI8Segments bytes segments
  else if base = DTYPE_F32_PUSH_I4 then decodeI4Segments bytes segments
  else
    match tensorNbytes (pushDtype base) segments.sum with
    | .error e => .error e
    | .ok expected =>
      if bytes.length ≠ expected then
        .error s!"push delta has {bytes.length} bytes, expected {expected}"
      else (decodeTensor (pushDtype base) bytes).map (List.map .raw)

inductive TensorScale
  | one
  | zero
  /-- `routed * experts / layer_routed`. -/
  | quotient (routed experts layerRouted : Nat)
deriving DecidableEq, Repr

def expertTag (i : Nat) : Reader TensorScale := do
  let routed ← Reader.word "payload truncated" 8
  let layerRouted ← Reader.word "payload truncated" 8
  let experts ← Reader.word "payload truncated" 4
  if experts = 0 then do
    Reader.ensure (routed = 0 ∧ layerRouted = 0)
      s!"dense tensor {i} carries routed tokens"
    pure .one
  else do
    Reader.ensure (routed ≤ layerRouted)
      (s!"tensor {i}: expert routed {routed} tokens of only {layerRouted} "
        ++ "in its layer")
    if layerRouted = 0 then pure .zero
    else pure (.quotient routed experts layerRouted)

def expertTags : Nat → Nat → Reader (List TensorScale)
  | _, 0 => pure []
  | i, n + 1 => do
    let scale ← expertTag i
    let rest ← expertTags (i + 1) n
    pure (scale :: rest)

def decodeExpertTags (tensors : Nat) : Reader (List TensorScale) := do
  let n ← Reader.word "payload truncated" 4
  Reader.ensure (n = tensors)
    s!"expert tag block has {n} entries, fragment has {tensors} tensors"
  let left ← Reader.rest
  Reader.ensure (n * 20 ≤ left.length) "expert tag block truncated"
  expertTags 0 n

structure Session where
  member : Member
  dtype : UInt8
  layout : List FragmentInfo
  expertTokens : Bool

def checkedNumel (f : FragmentInfo) : Except String Nat :=
  match sumChecked some 0 f.tensorNumels with
  | none => .error "fragment numel overflow"
  | some total =>
    if total = 0 then .error "fragment numel must be positive"
    else .ok total

structure DecodedPush where
  learnerId : U32
  fragmentId : Nat
  globalStep : Nat
  roundAttempt : Nat
  baseVersion : Nat
  localStep : Nat
  cSteps : Nat
  cTokens : Nat
  /-- The learner's delta, before its sign is turned. -/
  delta : List Delta
  tensorScales : Option (List TensorScale)

/-- Merge math consumes the outer gradient, of the opposite sign. -/
def DecodedPush.outerGradient (push : DecodedPush) : List F32 :=
  push.delta.map fun d => negate d.value

def sessionTags (session : Session) (fragment : FragmentInfo) :
    Reader (Option (List TensorScale)) :=
  if session.expertTokens then do
    let scales ← decodeExpertTags fragment.tensorNumels.length
    pure (some scales)
  else pure none

/-- The MSG_PUSH_FRAGMENT arm of `dispatch_inner`. -/
def pushFragment (session : Session) : Reader DecodedPush := do
  let learnerId ← Reader.word "payload truncated" 4
  Reader.ensure (learnerId = session.member.learnerId.val)
    (s!"PUSH_FRAGMENT learner id {learnerId} does not match connected "
      ++ s!"group {session.member.learnerId.val}")
  let fragmentId ← Reader.word "payload truncated" 4
  let globalStep ← Reader.word "payload truncated" 8
  let roundAttempt ← Reader.word "payload truncated" 4
  Reader.ensure (roundAttempt ≠ 0) "PUSH_FRAGMENT round_attempt must be positive"
  let baseVersion ← Reader.word "payload truncated" 8
  let localStep ← Reader.word "payload truncated" 8
  let cSteps ← Reader.word "payload truncated" 4
  let cTokens ← Reader.word "payload truncated" 8
  Reader.ensure (cSteps ≠ 0) "PUSH_FRAGMENT c_steps must be positive"
  let fragment ← Reader.ofExcept <| match session.layout[fragmentId]? with
    | none => .error s!"PUSH_FRAGMENT for unknown fragment {fragmentId}"
    | some fragment => .ok fragment
  let numel ← Reader.ofExcept (checkedNumel fragment)
  let tensorScales ← sessionTags session fragment
  let bytes ← Reader.rest
  let delta ← Reader.ofExcept (decodePushSegments session.dtype bytes
    (pushSegments session.dtype numel fragment.tensorNumels))
  pure
    { learnerId := session.member.learnerId
      fragmentId, globalStep, roundAttempt, baseVersion, localStep, cSteps
      cTokens, delta, tensorScales }

def decodePush (session : Session) (payload : List UInt8) : Except String DecodedPush :=
  (pushFragment session payload).map Prod.fst

end Yeto.Protocol
