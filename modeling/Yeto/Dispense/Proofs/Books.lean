/-
The dispenser's books: which holder owns which block.

`Books` holds in EVERY state of every run. A block's holder is live and lists
it, a listed block exists and is the lister's own, block numbers are below the
counter, accept lists name declared streams, and no stream is past its
capacity. Here: opening, reclaiming, expiry, and the other channels.
-/
import Yeto.Dispense.Proofs.Pick

namespace Yeto.Dispense

open Lib Dispenser List SortedMap Members

variable {list : List Nat} {m : Members}

/-- What the dispenser keeps in order. -/
structure Books (d : Dispenser) : Prop where
  members : d.members.Ok
  /-- A block's holder is live and lists the block. -/
  owner : ∀ id b, d.blocks.find id = some b →
    ∃ l, d.live.find b.holder = some l ∧ l.blocks.contains id = true
  /-- A listed block exists and is the lister's. -/
  owned : ∀ h l id, d.live.find h = some l → l.blocks.contains id = true →
    ∃ b, d.blocks.find id = some b ∧ b.holder = h
  ids : ∀ id b, d.blocks.find id = some b → id < d.nextBlock
  first : 1 ≤ d.nextBlock
  accept : ∀ h l, d.live.find h = some l → l.accept.Pairwise (· < ·)
    ∧ l.accept ≠ [] ∧ ∀ s ∈ l.accept, s < d.streams.length
  data : ∀ decl, d.data = some decl → decl.Valid ∧ d.streams.length = decl.streams.length
  nodata : d.data = none → d.streams = [] ∧ d.live = .empty
  counters : ∀ s < d.streams.length, (d.stream s).next ≤ 2 ^ 40
    ∧ (d.stream s).passesStarted ≤ 2 ^ 40

variable {d d' : Dispenser}

theorem Books.next (h : Books d) : ∀ s < d.streams.length, (d.stream s).next ≤ 2 ^ 40 :=
  fun s hs => (h.counters s hs).1

theorem Books.of_eq (h : Books d) (hm : d'.members.Ok)
    (hb : d'.blocks = d.blocks) (hn : d'.nextBlock = d.nextBlock)
    (hl : d'.live = d.live) (hd : d'.data = d.data) (hs : d'.streams = d.streams) : Books d' := by
  refine ⟨hm, ?_, ?_, ?_, ?_, ?_, ?_, ?_, ?_⟩
  · rw [hb, hl]; exact h.owner
  · rw [hb, hl]; exact h.owned
  · rw [hb, hn]; exact h.ids
  · rw [hn]; exact h.first
  · rw [hl, hs]; exact h.accept
  · rw [hd, hs]; exact h.data
  · rw [hd, hs, hl]; exact h.nodata
  · unfold stream
    rw [hs]
    exact h.counters

theorem Books.with_streams (h : Books d) {streams : List StreamState} (events : List DispenseEvent)
    (totals : Totals) (hlen : streams.length = d.streams.length)
    (hcount : ∀ s < streams.length, (streams.getD s .default).next ≤ 2 ^ 40
      ∧ (streams.getD s .default).passesStarted ≤ 2 ^ 40) :
    Books { d with streams := streams, events := events, totals := totals } := by
  refine ⟨h.members, h.owner, h.owned, h.ids, h.first, ?_, ?_, ?_, hcount⟩
  · intro h' l hl
    obtain ⟨h1, h2, h3⟩ := h.accept h' l hl
    exact ⟨h1, h2, fun s hs => hlen ▸ h3 s hs⟩
  · intro decl hd
    obtain ⟨h1, h2⟩ := h.data decl hd
    exact ⟨h1, hlen.trans h2⟩
  · intro hd
    obtain ⟨h1, h2⟩ := h.nodata hd
    refine ⟨eq_nil_of_length_eq_zero ?_, h2⟩
    show streams.length = 0
    rw [hlen, h1]
    rfl

theorem books_fresh (cfg : DispenseConfig) {lease : Nat} :
    Books (Dispenser.withMembers cfg (Members.new lease)) := by
  exact ⟨ok_new lease, nofun, nofun, nofun, Nat.le_refl 1, nofun, nofun, fun _ => ⟨rfl, rfl⟩, nofun⟩

theorem Books.log (h : Books d) (es : List DispenseEvent) : Books (d.log es) :=
  h.of_eq h.members rfl rfl rfl rfl rfl

theorem Books.with_members (h : Books d) (hm : m.Ok) :
    Books { d with members := m } := h.of_eq hm rfl rfl rfl rfl rfl

theorem Books.pushFront (h : Books d) (spans : List Span) : Books (d.pushFront spans) := by
  obtain ⟨hlen, hst⟩ := foldr_pushSpan_next (sortSpans spans) d.streams
  refine h.with_streams d.events d.totals hlen ?_
  intro s hs
  rw [(hst s).1, (hst s).2]
  exact h.counters s (by rw [← hlen]; exact hs)

/-- The dispenser before the spans are put back. -/
def afterReclaim (d : Dispenser) (holder : Holder) (reason : ReclaimReason)
    (live : Live) : Dispenser :=
  let taken := takeBlocks live.blocks.keys d.blocks
  { d with
    live := d.live.erase holder
    members := d.members.retire holder reason.retired
    blocks := taken.2
    totals := { d.totals with
      reclaimed := wadd d.totals.reclaimed (lenSum taken.1) }
    events := d.events ++ [.reclaim holder reason
      ((taken.1.map Span.range).insertionSort fun a b => rangeLe a b = true)] }

variable {holder : Holder}

theorem reclaim_some {live : Live} (reason : ReclaimReason) (h : d.live.find holder = some live) :
    d.reclaim holder reason = (lenSum (takeBlocks live.blocks.keys d.blocks).1,
        (afterReclaim d holder reason live).pushFront
          (takeBlocks live.blocks.keys d.blocks).1) := by
  unfold reclaim
  rw [h]
  rfl

theorem reclaim_none (reason : ReclaimReason) (h : d.live.find holder = none) :
    d.reclaim holder reason = (0, d) := by
  unfold reclaim
  rw [h]

theorem Books.reclaim (h : Books d) (holder : Holder)
    (reason : ReclaimReason) : Books (d.reclaim holder reason).2 := by
  cases hl : d.live.find holder with
  | none => rw [reclaim_none reason hl]; exact h
  | some live =>
    rw [reclaim_some reason hl]
    refine Books.pushFront ?_ _
    have hkeys : ∀ id, id ∈ live.blocks.keys ↔ live.blocks.contains id = true :=
      fun id => by rw [SortedMap.mem_keys_iff, SortedMap.contains_iff]
    have hleft : ∀ id b, (takeBlocks live.blocks.keys d.blocks).2.find id = some b →
        id ∉ live.blocks.keys ∧ d.blocks.find id = some b := by
      intro id b hb
      rw [find_takeBlocks] at hb
      exact Option.ite_none_left_eq_some.1 hb
    refine ⟨ok_retire h.members holder _, ?_, ?_,
      fun id b hb => h.ids id b (hleft id b hb).2, h.first, ?_, h.data, ?_, h.counters⟩
    · -- a block left behind is not listed by the holder, so not its own
      intro id b hb
      obtain ⟨hid, hb⟩ := hleft id b hb
      obtain ⟨l, hfind, hmem⟩ := h.owner id b hb
      have hne : b.holder ≠ holder := by
        intro he
        rw [he, hl] at hfind
        cases hfind
        exact hid ((hkeys id).2 hmem)
      exact ⟨l, (d.live.find_erase_ne hne).trans hfind, hmem⟩
    · intro h' l id hfind hmem
      obtain ⟨hne, hfind⟩ := find_erase_cases hfind
      obtain ⟨b, hb, hbh⟩ := h.owned h' l id hfind hmem
      refine ⟨b, ((find_takeBlocks ..).trans (if_neg fun hid => ?_)).trans hb, hbh⟩
      obtain ⟨b', hb', hbh'⟩ := h.owned holder live id hl ((hkeys id).1 hid)
      rw [hb] at hb'
      cases hb'
      exact hne (hbh.symm.trans hbh')
    · exact fun h' l hfind => h.accept h' l (find_erase_cases hfind).2
    · intro hd
      rw [(h.nodata hd).2] at hl
      cases hl

theorem reclaim_frame (d : Dispenser) (holder : Holder) (reason : ReclaimReason) :
    (d.reclaim holder reason).2.cfg = d.cfg ∧ (d.reclaim holder reason).2.data = d.data
      ∧ (d.reclaim holder reason).2.nextBlock = d.nextBlock
      ∧ (d.reclaim holder reason).2.streams.length = d.streams.length
      ∧ ∀ s, ((d.reclaim holder reason).2.stream s).next = (d.stream s).next
        ∧ ((d.reclaim holder reason).2.stream s).passesStarted = (d.stream s).passesStarted := by
  cases hl : d.live.find holder with
  | none =>
    rw [reclaim_none reason hl]
    exact ⟨rfl, rfl, rfl, rfl, fun s => ⟨rfl, rfl⟩⟩
  | some live =>
    rw [reclaim_some reason hl]
    obtain ⟨hlen, hst⟩ := foldr_pushSpan_next
      (sortSpans (takeBlocks live.blocks.keys d.blocks).1) d.streams
    exact ⟨rfl, rfl, rfl, hlen, hst⟩

theorem find_live_reclaim (d : Dispenser) (holder : Holder) (reason : ReclaimReason) (h : Holder) :
    (d.reclaim holder reason).2.live.find h = if h = holder then none else d.live.find h := by
  cases hl : d.live.find holder with
  | none =>
    rw [reclaim_none reason hl]
    split
    · next he => rw [he]; exact hl
    · rfl
  | some live =>
    rw [reclaim_some reason hl]
    exact d.live.find_erase holder h

def reclaimAll (es : List (Holder × ReclaimReason)) (d : Dispenser) :
    Dispenser := es.foldl (fun d e => (d.reclaim e.1 e.2).2) d

theorem supersede_eq (older : List Holder) : ∀ (p : Option U64) (n : Nat)
    (d : Dispenser), (supersede older p n d).2.2 = reclaimAll (older.map (·, .superseded)) d := by
  induction older with
  | nil => intro p n d; rfl
  | cons old older ih => intro p n d; exact ih _ _ _

theorem reclaimRetired_eq (rs : List (Holder × Option Retired)) :
    ∀ d : Dispenser, (reclaimRetired rs d).2 = reclaimAll (rs.map fun r =>
      (r.1, if r.2 = some .superseded then .superseded else .expired)) d := by
  induction rs with
  | nil => intro d; rfl
  | cons r rs ih =>
    by_cases hr : r.2 = some .superseded <;> simp [reclaimRetired, reclaimAll, hr, ih]

theorem expire_eq (d : Dispenser) (now : Nat) :
    ∃ es, es.map Prod.fst = d.live.keys.filter (d.members.expire now).2.isRetired ∧ (d.expire now).2
        = reclaimAll es { d with members := (d.members.expire now).2 } :=
  ⟨_, by simp [Function.comp_def], reclaimRetired_eq _ _⟩

theorem reclaims_keeps {Q : Dispenser → Prop}
    (hQ : ∀ d holder reason, Q d → Q (d.reclaim holder reason).2)
    (es : List (Holder × ReclaimReason)) (h : Q d) : Q (reclaimAll es d) := by
  induction es generalizing d with
  | nil => exact h
  | cons e es ih => exact ih (hQ d e.1 e.2 h)

theorem find_live_reclaims (es : List (Holder × ReclaimReason)) (h : Holder) :
    (reclaimAll es d).live.find h = if h ∈ es.map Prod.fst then none else d.live.find h := by
  induction es generalizing d with
  | nil => rfl
  | cons e es ih =>
    show (reclaimAll es (d.reclaim e.1 e.2).2).live.find h = _
    rw [ih, find_live_reclaim, ← ite_or, map_cons]
    simp only [mem_cons, or_comm]

theorem reclaimAll_frame (es : List (Holder × ReclaimReason)) : (reclaimAll es d).data = d.data
      ∧ (reclaimAll es d).streams.length = d.streams.length := by
  refine reclaims_keeps (Q := fun d' => d'.data = d.data
    ∧ d'.streams.length = d.streams.length) (fun d' k reason h => ?_) es ⟨rfl, rfl⟩
  obtain ⟨-, f2, -, f4, -⟩ := reclaim_frame d' k reason
  exact ⟨f2.trans h.1, f4.trans h.2⟩

theorem Books.reclaims (h : Books d) (es : List (Holder × ReclaimReason)) :
    Books (reclaimAll es d) :=
  reclaims_keeps (fun _ holder reason h => h.reclaim holder reason) es h

theorem Books.expire (h : Books d) (now : Nat) : Books (d.expire now).2 := by
  obtain ⟨es, -, heq⟩ := expire_eq d now
  rw [heq]
  exact (h.with_members (ok_expire h.members now)).reclaims es

theorem acceptList_ok {n : Nat} {accept : Option (List Nat)} (h : acceptList n accept = .ok list) :
    list.Pairwise (· < ·) ∧ (0 < n → list ≠ []) ∧ ∀ s ∈ list, s < n := by
  cases accept with
  | none =>
    cases h
    refine ⟨pairwise_lt_range, fun hn hnil => ?_, fun s hs => mem_range.1 hs⟩
    have := congrArg List.length hnil
    rw [length_range, length_nil] at this
    omega
  | some ids =>
    obtain ⟨hne, h⟩ := of_then_error h
    split at h <;> cases h
    next hfind =>
    refine ⟨?_, fun _ hnil => hne (by rw [hnil]; rfl), ?_⟩
    · have hsorted : (ids.insertionSort (· ≤ ·)).dedup.Pairwise (· ≤ ·) :=
        (pairwise_insertionSort (· ≤ ·) ids).sublist (dedup_sublist _)
      exact (hsorted.and (nodup_dedup _)).imp fun hab => lt_of_le_of_ne hab.1 hab.2
    · intro s hs
      have := List.find?_eq_none.1 hfind s hs
      simpa using this

variable {data : DataDecl}

theorem stream_fixData (d : Dispenser) (data : DataDecl) (s : Nat) :
    (d.fixData data).stream s = .default := by
  unfold stream Dispenser.fixData
  rw [getD_eq_getElem?_getD, List.getElem?_map]
  cases data.streams[s]? <;> rfl

theorem Books.fixData (h : Books d)
    (hv : data.Valid) (hd : d.data = none) : Books (d.fixData data) := by
  obtain ⟨-, hlive⟩ := h.nodata hd
  refine ⟨h.members, h.owner, h.owned, h.ids, h.first, ?_, ?_, ?_, ?_⟩
  · intro h' l hl
    cases (congrArg (·.find h') hlive).symm.trans hl
  · intro decl hdecl
    cases hdecl
    exact ⟨hv, length_map _⟩
  · nofun
  · intro s _
    rw [stream_fixData]
    exact ⟨Nat.zero_le _, Nat.zero_le _⟩

theorem agreeData_ok (h : d.agreeData holder data = .ok d') :
    (d.data = some data ∧ d' = d) ∨ (d.data = none ∧ d' = d.fixData data) := by
  unfold agreeData at h
  cases hd : d.data with rw [hd] at h
  | none =>
    cases h
    exact .inr ⟨rfl, rfl⟩
  | some run =>
    obtain ⟨heq, ⟨⟩⟩ := of_then_error h
    exact .inl ⟨by rw [not_not.1 heq], rfl⟩

theorem Books.agreeData (h : Books d) (hv : data.Valid) (ha : d.agreeData holder data = .ok d') :
    Books d' ∧ d'.data = some data ∧ d'.members = d.members := by
  rcases agreeData_ok ha with ⟨hd, rfl⟩ | ⟨hd, rfl⟩
  · exact ⟨h, hd, rfl⟩
  · exact ⟨h.fixData hv hd, rfl, rfl⟩

theorem Books.update_live (h : Books d) (holder : Holder)
    {f : Live → Live} (hblocks : ∀ l, (f l).blocks = l.blocks)
    (hacc : ∀ l, d.live.find holder = some l → (f l).accept.Pairwise (· < ·) ∧ (f l).accept ≠ []
        ∧ ∀ s ∈ (f l).accept, s < d.streams.length) :
    Books { d with live := d.live.update holder f } := by
  have hback : ∀ {h' l}, (d.live.update holder f).find h' = some l →
      ∃ l₀, d.live.find h' = some l₀ ∧ l.blocks = l₀.blocks
        ∧ (l = l₀ ∨ (h' = holder ∧ l = f l₀)) := by
    intro h' l hl
    rw [find_update] at hl
    split at hl
    · next he =>
      obtain ⟨l₀, h0, rfl⟩ := Option.map_eq_some_iff.1 hl
      exact ⟨l₀, by rw [he]; exact h0, hblocks l₀, .inr ⟨he, rfl⟩⟩
    · exact ⟨l, hl, rfl, .inl rfl⟩
  refine { h with owner := ?_, owned := ?_, accept := ?_, nodata := ?_ }
  · intro id b hb
    obtain ⟨l, hl, hmem⟩ := h.owner id b hb
    show ∃ l, (d.live.update holder f).find b.holder = some l ∧ _
    rw [find_update]
    split
    · next he =>
      rw [← he, hl]
      exact ⟨f l, rfl, by rw [hblocks]; exact hmem⟩
    · exact ⟨l, hl, hmem⟩
  · intro h' l id hl hmem
    obtain ⟨l₀, h0, hbl, -⟩ := hback hl
    exact h.owned h' l₀ id h0 (hbl ▸ hmem)
  · intro h' l hl
    obtain ⟨l₀, h0, -, he⟩ := hback hl
    rcases he with rfl | ⟨rfl, rfl⟩
    · exact h.accept h' l h0
    · exact hacc l₀ h0
  · intro hd
    obtain ⟨h1, h2⟩ := h.nodata hd
    refine ⟨h1, ?_⟩
    show d.live.update holder f = .empty
    rw [h2]
    rfl

theorem Books.insert_live (h : Books d) {l : Live} (hnew : d.live.find holder = none)
    (hl : l.blocks = .empty) (hdata : d.data ≠ none)
    (hacc : l.accept.Pairwise (· < ·) ∧ l.accept ≠ [] ∧ ∀ s ∈ l.accept, s < d.streams.length) :
    Books { d with live := d.live.insert holder l } := by
  refine { h with owner := ?_, owned := ?_, accept := ?_, nodata := ?_ }
  · intro id b hb
    obtain ⟨l', hl', hmem⟩ := h.owner id b hb
    have hne : b.holder ≠ holder := by
      intro he
      rw [he, hnew] at hl'
      cases hl'
    exact ⟨l', (d.live.find_insert_ne _ hne).trans hl', hmem⟩
  · intro h' l' id hl' hmem
    obtain ⟨-, rfl⟩ | ⟨-, hl'⟩ := find_insert_cases hl'
    · rw [hl] at hmem
      cases hmem
    · exact h.owned h' l' id hl' hmem
  · intro h' l' hl'
    obtain ⟨-, rfl⟩ | ⟨-, hl'⟩ := find_insert_cases hl'
    · exact hacc
    · exact h.accept h' l' hl'
  · intro hd
    exact absurd hd hdata

theorem Books.enroll (h : Books d) (now : Nat) (hr : d.members.isRetired holder = false)
    (hdata : d.data = some data)
    (hacc : list.Pairwise (· < ·) ∧ list ≠ [] ∧ ∀ s ∈ list, s < d.streams.length) :
    Books (d.enroll holder data list now).2 := by
  dsimp only [Dispenser.enroll]
  split
  · have ht := h.with_members (ok_touch h.members holder now)
    exact Books.log (ht.update_live holder (f := fun l => { l with accept := list })
      (fun _ => rfl) (fun _ _ => hacc)) _
  · next hnew =>
    split
    · exact h
    have hj := h.with_members (ok_join h.members now hr)
    rw [supersede_eq]
    obtain ⟨hd, hlen⟩ := reclaimAll_frame (d := { d with members := _ })
      ((d.olderOf holder).map (·, .superseded))
    refine Books.log (Books.insert_live (hj.reclaims _) ?_ rfl ?_
      ⟨hacc.1, hacc.2.1, fun s hs => ?_⟩) _
    · rw [find_live_reclaims]
      split
      · rfl
      · exact (contains_eq_false_iff _ _).1 (by simpa using hnew)
    · rw [hd, hdata]
      simp
    · rw [hlen]
      exact hacc.2.2 s hs

theorem Books.openWith (h : Books d) (holder : Holder) (data : DataDecl)
    (accept : Option (List Nat)) (now : Nat) : Books (d.openWith holder data accept now).2 := by
  unfold Dispenser.openWith
  split
  · exact h.log _
  next hr =>
  split
  · exact h
  split
  · exact h
  next hv =>
  have hvalid := (DataDecl.validate_ok_iff data).1 hv
  split
  · exact h
  next d' ha =>
  obtain ⟨hb, hd, hm⟩ := h.agreeData hvalid ha
  split
  · exact hb
  · next list hl =>
    obtain ⟨h1, h2, h3⟩ := acceptList_ok hl
    refine hb.enroll now (by rw [hm]; simpa using hr) hd ⟨h1, h2 ?_, h3⟩
    rw [(hb.data data hd).2]
    exact hvalid.count_pos

theorem ok_joinElsewhere (hm : m.Ok) {now : Nat} : (joinElsewhere m holder now).Ok := by
  unfold joinElsewhere
  split
  · exact hm
  · next hr => exact ok_join hm now (by simpa using hr)

theorem ok_onMembers (hm : m.Ok) (o : Op) : (o.onMembers m).Ok := by
  cases o with
  | memberJoin holder now => exact ok_joinElsewhere hm
  | memberTouch holder now => exact ok_touch hm holder now
  | memberRetire holder reason => exact ok_retire hm holder reason
  | memberExpire now => exact ok_expire hm now
  | _ => exact hm

/-- `holder` is live here and its lease in the shared table stands. -/
def Leased (d : Dispenser) (holder : Holder) : Prop :=
  d.live.contains holder = true ∧ d.members.isLive holder = true

theorem requireLive_cases (d : Dispenser) {holder : Holder} (request : Request) (now : Nat) :
    (¬ Leased d holder ∧ ∃ e, d.requireLive holder request now
        = (.error (.fenced e), d.log [.fenced holder request]))
      ∨ (Leased d holder ∧ d.requireLive holder request now
          = (.ok (), { d with members := (d.members.touch holder now).2 })) := by
  have htouch : (d.members.touch holder now).1 = d.members.isLive holder := by
    unfold touch
    split
    · next hl => exact hl.symm
    · next hl => exact ((Bool.not_eq_true _).mp hl).symm
  unfold requireLive Leased
  rw [htouch]
  split
  · next hc =>
    rw [Bool.and_eq_true] at hc
    exact .inr ⟨hc, rfl⟩
  · next hc =>
    rw [Bool.and_eq_true] at hc
    refine .inl ⟨hc, ?_⟩
    split <;> exact ⟨_, rfl⟩

theorem requireLive_rule {P : Dispenser → Prop} {request : Request} {now : Nat}
    (hlog : P (d.log [.fenced holder request]))
    (htouch : P { d with members := (d.members.touch holder now).2 }) :
    P (d.requireLive holder request now).2 := by
  rcases requireLive_cases d request now with ⟨-, e, he⟩ | ⟨-, he⟩ <;> rwa [he]

theorem Books.requireLive (h : Books d) (holder : Holder) (request : Request) (now : Nat) :
    Books (d.requireLive holder request now).2 :=
  requireLive_rule (h.log _) (h.with_members (ok_touch h.members holder now))

theorem Books.remember (h : Books d) (holder : Holder)
    (seq : Nat) (answer : Answer) : Books (d.remember holder seq answer) :=
  h.update_live holder (fun _ => rfl) (fun l hl => h.accept holder l hl)

end Yeto.Dispense
