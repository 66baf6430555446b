/-
Every entry names its own payload. A name is taken once and for all, so a
payload has ONE id it was written for (`FilesOk.unique`).

Two sample ids can have one payload name. A sampler is then refused. The pump
takes a refused write for the trace of its own earlier attempt and appends an
entry that names the payload of the OTHER id, unless `ownPayload`.
-/
import Yeto.SampleBuffer.System
import Yeto.Lib.Guards

namespace Yeto.SampleBuffer

open Lib SampleRelay List

variable {codec : Codec}

/-- Every entry names a payload that was written for its own id, and no
other entry names it. -/
structure OwnPayloads (f : Files) : Prop where
  own : ∀ e ∈ f.buffer.entries, ∃ data,
    f.buffer.payloads e.payloadRef = some data ∧ ⟨e.sampleId, data⟩ ∈ f.written
  apart : ∀ e ∈ f.buffer.entries, ∀ e' ∈ f.buffer.entries,
    e.sampleId ≠ e'.sampleId → e.payloadRef ≠ e'.payloadRef

/-- The payload files against the history of their writes. -/
structure FilesOk (f : Files) : Prop where
  /-- A payload in the store is one of the writes. -/
  stored : ∀ ref data, f.buffer.payloads ref = some data → ∃ w ∈ f.written, payloadName w.id = ref
  /-- A write is in the store, under its name. -/
  kept : ∀ w ∈ f.written, f.buffer.payloads (payloadName w.id) = some w.data
  /-- A name is written once. -/
  unique : ∀ w ∈ f.written, ∀ w' ∈ f.written, payloadName w.id = payloadName w'.id → w.id = w'.id
  entries : ∀ e ∈ f.buffer.entries, e.payloadRef = payloadName e.sampleId
    ∧ ∃ w ∈ f.written, w.id = e.sampleId

theorem FilesOk.ownPayloads {f : Files} (h : FilesOk f) : OwnPayloads f where
  own e he := by
    obtain ⟨href, w, hw, hid⟩ := h.entries e he
    refine ⟨w.data, ?_, ?_⟩
    · rw [href, ← hid]
      exact h.kept w hw
    · rw [← hid]
      exact hw
  apart e he e' he' hne heq := by
    obtain ⟨href, w, hw, hid⟩ := h.entries e he
    obtain ⟨href', w', hw', hid'⟩ := h.entries e' he'
    refine hne ?_
    rw [← hid, ← hid']
    refine h.unique w hw w' hw' ?_
    rw [hid, hid', ← href, ← href', heq]

def Buffer.place (b : Buffer) (id : SampleId) (data : Bytes) : Buffer :=
  { b with
    payloads := Function.update b.payloads (payloadName id) (some data) }

def Buffer.enter (b : Buffer) (id : SampleId) (version tokens : Nat) : Buffer :=
  { b with entries := b.entries ++ [⟨id, version, payloadName id, tokens⟩] }

section Kept

variable {f : Files} {id : SampleId}

theorem FilesOk.place (h : FilesOk f)
    (hfree : f.buffer.payloads (payloadName id) = none) (data : Bytes) (p : RelayPump) :
    FilesOk ⟨f.buffer.place id data, p, f.written ++ [⟨id, data⟩]⟩ := by
  -- No earlier write has the name.
  have hnew : ∀ w ∈ f.written, payloadName w.id ≠ payloadName id := by
    intro w hw heq
    have := h.kept w hw
    rw [heq, hfree] at this
    cases this
  have hself : (f.buffer.place id data).payloads (payloadName id) = some data :=
    Function.update_self ..
  have hother : ∀ ref ≠ payloadName id,
      (f.buffer.place id data).payloads ref = f.buffer.payloads ref :=
    fun ref hne => Function.update_of_ne hne ..
  refine ⟨fun ref d href => ?_, fun w hw => ?_, fun w hw w' hw' heq => ?_, fun e he => ?_⟩
  · by_cases hname : ref = payloadName id
    · exact ⟨⟨id, data⟩, mem_append_cons_self, hname.symm⟩
    · rw [hother ref hname] at href
      obtain ⟨w, hw, hwname⟩ := h.stored ref d href
      exact ⟨w, mem_append_left _ hw, hwname⟩
  · rcases mem_snoc.1 hw with hw | rfl
    · rw [hother _ (hnew w hw)]
      exact h.kept w hw
    · exact hself
  · rcases mem_append.1 hw with hw | hw <;> rcases mem_append.1 hw' with hw' | hw'
    · exact h.unique w hw w' hw' heq
    · cases mem_singleton.1 hw'
      exact absurd heq (hnew w hw)
    · cases mem_singleton.1 hw
      exact absurd heq.symm (hnew w' hw')
    · rw [mem_singleton.1 hw, mem_singleton.1 hw']
  · obtain ⟨href, w, hw, hid⟩ := h.entries e he
    exact ⟨href, w, mem_append_left _ hw, hid⟩

theorem FilesOk.enter (h : FilesOk f) {w : Written} (hw : w ∈ f.written)
    (hid : w.id = id) (version tokens : Nat) (p : RelayPump) :
    FilesOk ⟨f.buffer.enter id version tokens, p, f.written⟩ := by
  refine { h with entries := fun e he => ?_ }
  rcases mem_snoc.1 he with he | rfl
  · exact h.entries e he
  · exact ⟨rfl, w, hw, hid⟩

theorem FilesOk.congr (h : FilesOk f) (p : RelayPump) : FilesOk ⟨f.buffer, p, f.written⟩ :=
  { h with }

end Kept

section Writers

variable {b b' : Buffer} {id : SampleId} {data : Bytes}

theorem newPayload_self : newPayload b b id = [] := by
  unfold newPayload
  cases b.payloads (payloadName id) <;> rfl

theorem newPayload_place (hfree : b.payloads (payloadName id) = none) :
    newPayload b (b.place id data) id = [⟨id, data⟩] := by
  have hself : (b.place id data).payloads (payloadName id) = some data := Function.update_self ..
  unfold newPayload
  rw [hfree, hself]

@[simp] theorem newPayload_enter {id' : SampleId} (version tokens : Nat) :
    newPayload b (b'.enter id' version tokens) id = newPayload b b' id := rfl

theorem writePayload_ok {ref : Ref} (h : b.writePayload id data = .ok (ref, b')) :
    b.payloads (payloadName id) = none ∧ ref = payloadName id ∧ b' = b.place id data := by
  obtain ⟨hfree, ⟨⟩⟩ := of_then_error h
  refine ⟨?_, rfl, rfl⟩
  exact Option.not_isSome_iff_eq_none.1 hfree

theorem groupWrite_cases {version : Nat} (tokens : Nat) (fault : Fault) :
    groupWrite b id data version tokens fault = b ∨ b.payloads (payloadName id) = none
        ∧ (groupWrite b id data version tokens fault = b.place id data
          ∨ groupWrite b id data version tokens fault
            = (b.place id data).enter id version tokens) := by
  unfold groupWrite
  split
  · exact .inl rfl
  · exact .inl rfl
  · next hwrite =>
    obtain ⟨hfree, -, rfl⟩ := writePayload_ok hwrite
    exact .inr ⟨hfree, .inl rfl⟩
  · next hwrite _ _ =>
    obtain ⟨hfree, rfl, rfl⟩ := writePayload_ok hwrite
    exact .inr ⟨hfree, (Buffer.appendWith_cases ..).imp_left And.left⟩

/-- What the pump leaves of an item: nothing, its payload, its entry, or
both; an entry without a payload of its own names one that was there. -/
inductive PumpEffect (b : Buffer) (id : SampleId) : Buffer → Prop
  | same : PumpEffect b id b
  | placed (data : Bytes) (free : b.payloads (payloadName id) = none) :
      PumpEffect b id (b.place id data)
  | both (data : Bytes) (version tokens : Nat) (free : b.payloads (payloadName id) = none) :
      PumpEffect b id ((b.place id data).enter id version tokens)
  | entered (version tokens : Nat) {data : Bytes}
      (taken : b.payloads (payloadName id) = some data) :
      PumpEffect b id (b.enter id version tokens)

theorem append_cases {p : RelayPump} {header : Header} (fault : Fault) :
    (p.append b header id (payloadName id) fault).buffer = b
      ∨ ∃ version tokens, (p.append b header id (payloadName id) fault).buffer
        = b.enter id version tokens := by
  unfold RelayPump.append
  split
  · next version tokens _ _ =>
    dsimp only
    rcases b.appendWith_cases ⟨id, version, payloadName id, tokens⟩ fault with
      ⟨heq, -⟩ | heq
    · split <;> exact .inl heq
    · split <;> exact .inr ⟨version, tokens, heq⟩
  · exact .inl rfl

section Effects

variable {p : RelayPump} {header : Header} {fault : Fault}

theorem effect_placed (hfree : b.payloads (payloadName id) = none) :
    PumpEffect b id (p.append (b.place id data) header id (payloadName id) fault).buffer := by
  rcases append_cases fault with
    heq | ⟨version, tokens, heq⟩ <;> rw [heq]
  · exact .placed _ hfree
  · exact .both _ version tokens hfree

theorem effect_taken (htaken : b.hasPayload (payloadName id) = true) :
    PumpEffect b id (p.append b header id (payloadName id) fault).buffer := by
  obtain ⟨data, hdata⟩ := Option.isSome_iff_exists.1 htaken
  rcases append_cases fault with heq | ⟨version, tokens, heq⟩ <;> rw [heq]
  · exact .same
  · exact .entered version tokens hdata

end Effects

theorem settle_effect {p : RelayPump} {item : Item} (fault : Fault) :
    (p.settle codec b item fault).buffer = b ∨ ∃ id, itemId codec item = some id
        ∧ PumpEffect b id (p.settle codec b item fault).buffer := by
  unfold RelayPump.settle itemId
  split
  · exact .inl rfl
  · exact .inl rfl
  · next header payload hdec =>
    split
    · exact .inl rfl
    next id hid =>
    split
    · exact .inl rfl
    split
    · exact .inl rfl
    · exact .inl rfl
    · refine .inr ⟨id, by rw [hdec]; exact hid, ?_⟩
      split
      · exact .same
      · next hwrite =>
        obtain ⟨hfree, -, rfl⟩ := writePayload_ok hwrite
        exact .placed _ hfree
      · next hwrite _ _ =>
        obtain ⟨hfree, rfl, rfl⟩ := writePayload_ok hwrite
        exact effect_placed hfree
      · split
        · next htaken => exact effect_taken htaken
        · exact .same

end Writers

theorem filesOk_new : FilesOk .new := ⟨nofun, nofun, nofun, nofun⟩

theorem FilesOk.group {f : Files} (h : FilesOk f) (id : SampleId)
    (data : Bytes) (version tokens : Nat) (fault : Fault) :
    FilesOk ⟨groupWrite f.buffer id data version tokens fault, f.pump,
      f.written ++ newPayload f.buffer (groupWrite f.buffer id data version tokens fault) id⟩ := by
  rcases groupWrite_cases tokens fault with
    heq | ⟨hfree, heq | heq⟩
  · rw [heq, newPayload_self, append_nil]
    exact h
  · rw [heq, newPayload_place hfree]
    exact h.place hfree data f.pump
  · rw [heq, newPayload_enter, newPayload_place hfree]
    exact (h.place hfree data f.pump).enter mem_append_cons_self rfl version tokens f.pump

theorem FilesOk.item {f : Files} (h : FilesOk f) (item : Item) (fault : Fault)
    (hown : ownPayload codec f (.item item fault) = true) :
    ∀ {f' : Files}, f.exec codec (.item item fault) = some f' → FilesOk f' := by
  intro f' hexec
  cases hexec
  rcases settle_effect fault with heq | ⟨id, hid, heff⟩
  · rw [heq]
    cases itemId codec item with
    | none =>
      rw [append_nil]
      exact h.congr _
    | some id =>
      dsimp only
      rw [newPayload_self, append_nil]
      exact h.congr _
  · dsimp only [ownPayload] at hown
    rw [hid] at hown ⊢
    dsimp only at hown ⊢
    generalize (f.pump.settle codec f.buffer item fault).buffer = b at heff ⊢
    cases heff with
    | same =>
      rw [newPayload_self, append_nil]
      exact h.congr _
    | placed data free =>
      rw [newPayload_place free]
      exact h.place free data _
    | both data version tokens free =>
      rw [newPayload_enter, newPayload_place free]
      exact (h.place free data f.pump).enter mem_append_cons_self rfl version tokens _
    | @entered version tokens data taken =>
      rw [newPayload_enter, newPayload_self, append_nil]
      obtain ⟨w, hw, hname⟩ := h.stored _ data taken
      have hid := of_decide_eq_true (all_eq_true.1 hown w hw) hname
      exact h.enter hw hid version tokens _

theorem FilesOk.step {f f' : Files} {op : FileOp} (h : FilesOk f)
    (hown : ownPayload codec f op = true) (hexec : f.exec codec op = some f') : FilesOk f' := by
  cases op with
  | group id data version tokens fault =>
    cases hexec
    exact h.group id data version tokens fault
  | item item fault => exact h.item item fault hown hexec
  | restart =>
    cases hexec
    exact h.congr _
  | markDataEnd =>
    cases hexec
    exact { h with }

/-- Every entry names its own payload, in every run where the payload under
the name of a pumped item was written for the item's id. -/
theorem entries_own_payloads {codec : Codec} {f : Files}
    (h : (fileRuns codec (ownPayload codec)).Reachable f) : OwnPayloads f :=
  (System.guarded_invariant filesOk_new
    (fun _ _ _ hf hown hexec => hf.step hown hexec) h).ownPayloads

/-- Items whose first byte is their sample id, and whose rest is the
payload; a slash or a colon before it makes two ids of one name. -/
def pathCodec : Codec where
  decode payload := match payload with
    | b :: rest => .ok (⟨some ['g', Char.ofNat b.toNat, '1'], some 0, some 1⟩, rest)
    | [] => .malformed
  cut _ bytes := .ok bytes

/-- The pump settles an item with the id `g/1`, then one with the id
`g:1`. -/
def collidingItems : List FileOp := [.item ⟨1, 7, [47, 1]⟩ .none, .item ⟨2, 7, [58, 2]⟩ .none]

/-- Two entries with different ids name one payload, which is the bytes of
the first. -/
theorem colliding_ids_share_payload : ∃ f, (fileRuns pathCodec fun _ _ => true).Reachable f
      ∧ f.buffer.entries = [⟨['g', '/', '1'], 0, payloadName ['g', '/', '1'], 1⟩,
        ⟨['g', ':', '1'], 0, payloadName ['g', '/', '1'], 1⟩]
      ∧ f.buffer.payloads (payloadName ['g', '/', '1']) = some [1] ∧ ¬ OwnPayloads f := by
  obtain ⟨f, hreach, hentries, hdata⟩ : ∃ f, (fileRuns pathCodec fun _ _ => true).Reachable f
      ∧ f.buffer.entries = [⟨['g', '/', '1'], 0, payloadName ['g', '/', '1'], 1⟩,
        ⟨['g', ':', '1'], 0, payloadName ['g', '/', '1'], 1⟩]
      ∧ f.buffer.payloads (payloadName ['g', '/', '1']) = some [1] :=
    System.exists_reachable collidingItems (by decide +kernel)
  refine ⟨f, hreach, hentries, hdata, fun h => ?_⟩
  have hapart := h.apart
  rw [hentries] at hapart
  exact hapart _ mem_cons_self _ (mem_cons_of_mem _ (mem_singleton_self _)) (by decide) rfl

/-- A pump stops between a payload and its entry, and a new one finishes:
the entry names the payload its own id was written under. -/
theorem entries_own_payloads_resumed :
    ∃ f, (fileRuns pathCodec (ownPayload pathCodec)).Reachable f
      ∧ f.buffer.ids = [['g', '/', '1']] ∧ OwnPayloads f := by
  obtain ⟨f, hreach, hids⟩ : ∃ f, (fileRuns pathCodec (ownPayload pathCodec)).Reachable f
      ∧ f.buffer.ids = [['g', '/', '1']] := System.exists_reachable
    [.item ⟨1, 7, [47, 1]⟩ .written, .restart, .item ⟨1, 7, [47, 1]⟩ .none] (by decide +kernel)
  exact ⟨f, hreach, hids, entries_own_payloads hreach⟩

end Yeto.SampleBuffer
