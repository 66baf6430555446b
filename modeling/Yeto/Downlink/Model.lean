/-
The bf16 downlink: the anchors of the syncer (`syncer/src/downlink.rs`) and of
a learner (`yeto/downlink.py`), byte for byte.

A float is its bit pattern. The arithmetic of the two sides is a parameter
(`Numerics`). A broadcast is bytes: the 53-byte head, then the tensor in the
dtype of the frame. The learner decodes the tensor from chunks cut anywhere.
Exceptions are values of `DownlinkError`.
-/
import Yeto.Lib.Bytes
import Yeto.Members

namespace Yeto.Downlink

open Lib

abbrev F32 := U32

abbrev Bf16 := Fin 65536

instance neZeroBf16 : NeZero 65536 := ⟨by decide⟩

/-- The learner's widening: the bits become the upper half of the f32. -/
def widen (b : Bf16) : F32 := Fin.ofNat 4294967296 (b.val * 65536)

/-- `is_finite`: the exponent is not all ones. -/
def isFinite (x : F32) : Bool := x.val / 8388608 % 256 != 255

structure Numerics where
  add : F32 → F32 → F32
  sub : F32 → F32 → F32
  /-- `bf16::from_f32(x).to_bits()`. -/
  round : F32 → Bf16
  /-- `bf16::to_f32`, which may change the bits of a NaN. -/
  toF32 : Bf16 → F32
  toF32_finite : ∀ b, isFinite (toF32 b) = true → toF32 b = widen b
  sha256 : List UInt8 → List UInt8
  length_sha256 : ∀ bytes, (sha256 bytes).length = 32

def f32Bytes (values : List F32) : List UInt8 := values.flatMap fun v => le 4 v.val

/-- The hash of the values, as `digest_f32` and the learner's running
hasher compute it: both hash the concatenation. -/
def digestF32 (n : Numerics) (values : List F32) : List UInt8 := n.sha256 (f32Bytes values)

def kindFull : UInt8 := 0
def kindDelta : UInt8 := 1

inductive Dtype
  | f32
  | bf16
deriving DecidableEq, Repr

structure Anchor where
  version : U64
  values : List F32
  digest : List UInt8
  deltasSinceFull : Nat
deriving DecidableEq, Repr

/-- One encoded broadcast: its head, and the values with the dtype they
are sent in. -/
structure EncodedBcast where
  head : List UInt8
  dtype : Dtype
  values : List F32
deriving DecidableEq, Repr

/-- `prefix`: fragment, version, kind, base version, digest. -/
def encodeHead (fragment : U32) (version : U64) (kind : UInt8)
    (baseVersion : U64) (digest : List UInt8) : List UInt8 := le 4 fragment.val ++ (le 8 version.val
    ++ (kind :: (le 8 baseVersion.val ++ digest)))

/-- The head of a FULL that carries `params` exactly. -/
def exactFullPrefix (n : Numerics) (fragment : U32) (version : U64)
    (params : List F32) : List UInt8 :=
  encodeHead fragment version kindFull version (digestF32 n params)

/-- The tensor bytes of a frame (`append_tensor_bytes` over the whole
tensor). -/
def tensorBytes (n : Numerics) : Dtype → List F32 → List UInt8
  | .f32, values => f32Bytes values
  | .bf16, values => values.flatMap fun v => le 2 (n.round v).val

def EncodedBcast.payload (n : Numerics) (f : EncodedBcast) : List UInt8 :=
  f.head ++ tensorBytes n f.dtype f.values

structure DownlinkAnchors where
  fullEvery : Nat
  anchors : List (Option Anchor)
deriving DecidableEq, Repr

namespace DownlinkAnchors

def new (fragments fullEvery : Nat) : Except String DownlinkAnchors :=
  if fullEvery < 2 then
    .error "--bcast-delta-full-every must be at least 2"
  else
    .ok { fullEvery, anchors := List.replicate fragments none }

def anchor (s : DownlinkAnchors) (p : U32) : Option Anchor := (s.anchors[p.val]?).join

def put (s : DownlinkAnchors) (p : U32) (a : Anchor) : DownlinkAnchors :=
  { s with anchors := s.anchors.set p.val (some a) }

def reset (n : Numerics) (s : DownlinkAnchors) (p : U32) (version : U64)
    (params : List F32) : EncodedBcast × DownlinkAnchors :=
  let digest := digestF32 n params
  ({ head := encodeHead p version kindFull version digest
     dtype := .f32
     values := params }, s.put p { version, values := params, digest, deltasSinceFull := 0 })

/-- The loop of `publish` over the anchor's values and the parameters:
the deltas and the moved anchor, or `none` at the first delta that
overflows bf16. -/
def deltaLoop (n : Numerics) : List F32 → List F32 → Option (List F32 × List F32)
  | a :: values, t :: params =>
    let d := n.toF32 (n.round (n.sub t a))
    if isFinite d then
      (deltaLoop n values params).map fun (delta, moved) =>
        (d :: delta, n.add a d :: moved)
    else none
  | values, _ => some ([], values)

def deltaOk (s : DownlinkAnchors) (a : Anchor) (version : U64) (params : List F32) : Bool :=
  decide (a.deltasSinceFull + 1 < s.fullEvery)
    && a.values.length == params.length && decide (a.version < version)

/-- Encode the broadcast of a newly committed version and advance the
shared anchor. -/
def publish (n : Numerics) (s : DownlinkAnchors) (p : U32) (version : U64)
    (params : List F32) : Except String (EncodedBcast × DownlinkAnchors) :=
  match s.anchors[p.val]? with
  | none => .error s!"downlink anchor for unknown fragment {p}"
  | some none => .ok (s.reset n p version params)
  | some (some a) =>
    if s.deltaOk a version params then
      match deltaLoop n a.values params with
      | none => .ok (s.reset n p version params)
      | some (delta, moved) =>
        let digest := digestF32 n moved
        .ok
          ({ head := encodeHead p version kindDelta a.version digest
             dtype := .bf16
             values := delta },
           s.put p
             { version, values := moved, digest
               deltasSinceFull := a.deltasSinceFull + 1 })
    else .ok (s.reset n p version params)

/-- The FULL of the exact parameters, for a fragment without an anchor at
this version. -/
def exactFull (n : Numerics) (p : U32) (version : U64) (params : List F32) : EncodedBcast :=
  { head := exactFullPrefix n p version params, dtype := .f32
    values := params }

def publishFull (n : Numerics) (s : DownlinkAnchors) (p : U32)
    (version : U64) (params : List F32) : EncodedBcast × DownlinkAnchors :=
  match s.anchors[p.val]? with
  | some _ => s.reset n p version params
  | none => (exactFull n p version params, s)

/-- The FULL re-send of `version` when the shared anchor is at that
version. -/
def anchoredFull (s : DownlinkAnchors) (p : U32) (version : U64) :
    Option EncodedBcast :=
  match s.anchor p with
  | some a =>
    if a.version = version then
      some
        { head := encodeHead p version kindFull version a.digest
          dtype := .f32
          values := a.values }
    else none
  | none => none

/-- The FULL re-send for recovery: the shared anchor where it is at
`version`, the exact parameters otherwise. -/
def resend (n : Numerics) (s : DownlinkAnchors) (p : U32) (version : U64)
    (params : List F32) : EncodedBcast :=
  (s.anchoredFull p version).getD (exactFull n p version params)

end DownlinkAnchors

inductive DownlinkError
  | value (message : String)
  | resync (message : String)
deriving DecidableEq, Repr

def headerLen : Nat := 41

def tensorNbytes (kind : UInt8) (numel : Nat) : Nat :=
  if kind = kindFull then 4 * numel else 2 * numel

structure Held where
  version : Nat
  values : List F32
deriving DecidableEq, Repr

/-- The decode of one broadcast. `values` is the part filled so far. -/
structure DownlinkDecode where
  fragmentId : Nat
  version : Nat
  kind : UInt8
  base : List F32
  digest : List UInt8
  numel : Nat
  values : List F32
  carry : List UInt8
  hashed : List UInt8
deriving DecidableEq, Repr

def words (width : Nat) : Nat → List UInt8 → List Nat
  | 0, _ => []
  | count + 1, bytes => ofLe (bytes.take width) :: words width count (bytes.drop width)

namespace DownlinkDecode

def new (fragmentId version : Nat) (kind : UInt8) (base : List F32)
    (digest : List UInt8) (numel : Nat) : DownlinkDecode :=
  { fragmentId, version, kind, base, digest, numel
    values := [], carry := [], hashed := [] }

def width (d : DownlinkDecode) : Nat := if d.kind = kindFull then 4 else 2

/-- The values `count` words of wire bytes decode to: the words
themselves, or the sums with the next stretch of the base. -/
def decoded (n : Numerics) (d : DownlinkDecode) (count : Nat) (raw : List UInt8) : List F32 :=
  if d.kind = kindFull then
    (words 4 count raw).map (Fin.ofNat 4294967296)
  else
    List.zipWith n.add ((d.base.drop d.values.length).take count)
      ((words 2 count raw).map fun bits => widen (Fin.ofNat 65536 bits))

/-- Decode the next wire bytes, and return the f32 bytes they complete. -/
def feed (n : Numerics) (d : DownlinkDecode) (data : List UInt8) :
    Except DownlinkError (List UInt8 × DownlinkDecode) :=
  let raw := d.carry ++ data
  let whole := raw.length - raw.length % d.width
  if whole = 0 then .ok ([], { d with carry := raw })
  else
    let count := whole / d.width
    if d.values.length + count > d.numel then
      .error (.value "downlink BCAST has more values than its fragment")
    else
      let out := d.decoded n count raw
      if out.all isFinite then
        .ok (f32Bytes out, { d with
            carry := raw.drop whole
            values := d.values ++ out
            hashed := d.hashed ++ f32Bytes out })
      else
        .error (.value "downlink BCAST decodes to a non-finite value")

def finish (n : Numerics) (d : DownlinkDecode) : Except DownlinkError Unit :=
  if d.carry ≠ [] ∨ d.values.length ≠ d.numel then
    .error (.value "downlink BCAST ended before its fragment was complete")
  else if n.sha256 d.hashed ≠ d.digest then
    let fragmentId := d.fragmentId
    let version := d.version
    .error (.resync ("downlink anchor digest mismatch for fragment "
      ++ s!"{fragmentId} version {version}"))
  else .ok ()

end DownlinkDecode

structure LearnerAnchors where
  held : List (Option Held)
deriving DecidableEq, Repr

/-- The version a learner holds, as the message of a refused delta prints
it. -/
def Held.shown : Option Held → String
  | none => "None"
  | some h => toString h.version

namespace LearnerAnchors

def new (fragments : Nat) : LearnerAnchors := { held := List.replicate fragments none }

def heldAt (s : LearnerAnchors) (fragmentId : Nat) : Option Held := (s.held[fragmentId]?).join

/-- Read the 41-byte header and open a decode. A delta is taken over the
anchor held now. -/
def begin (s : LearnerAnchors) (fragmentId version : Nat) (header : List UInt8) (numel : Nat) :
    Except DownlinkError DownlinkDecode :=
  let kind := header.headD 0
  let baseVersion := ofLe ((header.drop 1).take 8)
  let digest := header.drop 9
  if kind = kindFull then
    .ok (.new fragmentId version kind [] digest numel)
  else if kind ≠ kindDelta then
    .error (.value s!"unknown downlink kind {kind}")
  else
    let held := s.heldAt fragmentId
    let refuse : Except DownlinkError DownlinkDecode := let holds := Held.shown held
      .error (.resync (s!"downlink delta for fragment {fragmentId} "
        ++ s!"version {version} needs anchor version {baseVersion}; "
        ++ s!"learner holds {holds}"))
    match held with
    | none => refuse
    | some h =>
      if h.version ≠ baseVersion ∨ h.values.length ≠ numel then refuse
      else .ok (.new fragmentId version kind h.values digest numel)

def commit (s : LearnerAnchors) (d : DownlinkDecode) : LearnerAnchors :=
  let adopt : LearnerAnchors := { held := s.held.set d.fragmentId (some ⟨d.version, d.values⟩) }
  match s.heldAt d.fragmentId with
  | none => adopt
  | some h => if h.version ≤ d.version then adopt else s

/-- A broadcast that arrives in one piece: header and tensor. -/
def decodeWhole (n : Numerics) (s : LearnerAnchors)
    (fragmentId version : Nat) (payload : List UInt8) (numel : Nat) :
    Except DownlinkError (DownlinkDecode × LearnerAnchors) :=
  if payload.length < headerLen then
    .error (.value "downlink BCAST header truncated")
  else
    match s.begin fragmentId version (payload.take headerLen) numel with
    | .error e => .error e
    | .ok decode =>
      let got := payload.length - headerLen
      let want := tensorNbytes decode.kind numel
      if got ≠ want then
        .error (.value (s!"downlink BCAST {fragmentId} has {got} "
          ++ s!"tensor bytes, expected {want}"))
      else
        match decode.feed n (payload.drop headerLen) with
        | .error e => .error e
        | .ok (_, decode) =>
          match decode.finish n with
          | .error e => .error e
          | .ok () => .ok (decode, s.commit decode)

end LearnerAnchors

structure Transaction where
  fragmentId : Nat
  version : Nat
  numel : Nat
  header : List UInt8
  decode : Option DownlinkDecode
deriving DecidableEq, Repr

namespace Transaction

def bindFragment (fragmentId version numel : Nat) : Transaction :=
  { fragmentId, version, numel, header := [], decode := none }

/-- Take the next payload bytes: first the header, then the tensor. The
bytes handed on to the wrapped sink come back with the transaction. -/
def consumeChunk (n : Numerics) (s : LearnerAnchors) (tx : Transaction)
    (data : List UInt8) : Except DownlinkError (List UInt8 × Transaction) :=
  let feed (tx : Transaction) (d : DownlinkDecode) (data : List UInt8) := match d.feed n data with
    | .error e => .error e
    | .ok (out, d) => .ok (out, { tx with decode := some d })
  match tx.decode with
  | some d => feed tx d data
  | none =>
    let take := min (headerLen - tx.header.length) data.length
    let tx := { tx with header := tx.header ++ data.take take }
    if tx.header.length < headerLen then .ok ([], tx)
    else
      match s.begin tx.fragmentId tx.version tx.header tx.numel with
      | .error e => .error e
      | .ok d => feed tx d (data.drop take)

/-- End of the message. `innerOk` is whether the wrapped sink finished its
own transaction; where it did not, its exception leaves the anchors
alone. -/
def finishMessage (n : Numerics) (s : LearnerAnchors) (tx : Transaction) (innerOk : Bool) :
    Except DownlinkError (DownlinkDecode × LearnerAnchors) :=
  match tx.decode with
  | none => .error (.value "downlink BCAST ended inside its header")
  | some d =>
    match d.finish n with
    | .error e => .error e
    | .ok () =>
      if innerOk then .ok (d, s.commit d)
      else .error (.value "the wrapped sink refused the message")

end Transaction

end Yeto.Downlink
