/-
The groups of a fenced incarnation over several claims.

Each claim rewrites the whole record. In an `orderly` run an entry one claim
fences is fenced by every later one, an entry the first superseding claimer
saw is never stale, and of two claims that overlap only the winner's groups
are accepted (`fenced_groups_stale`). In others a third claim can undo each of
these (`fence_undone`).
-/
import Yeto.Incarnation.Proofs.Claims

namespace Yeto.Incarnation

open Lib List Option Bool

variable {q : Put}

/-- The claim was not superseded itself, and knows every incarnation the
lease it overwrites names. -/
def Claim.knows (c : Claim) (p : Put) : Bool := decide (c.incarnation ∉ p.record.superseded
    ∧ ∀ n ∈ p.record.incarnation :: p.record.superseded, n ∈ c.names)

def firstFence (puts : List Put) (e : Entry) : Option Put :=
  puts.reverse.find? fun p => e.round.any fun r =>
    decide (r.1 = p.record.sampler ∧ r.2 ∈ p.record.superseded)

/-- That claimer saw the entry at position `i`. -/
def spared (puts : List Put) (i : Nat) (e : Entry) : Bool :=
  (firstFence puts e).any fun p => decide (i < p.seen)

/-- The entry is one that has to stay stale: fenced by an earlier claim, or
of a claim that was put after `c` read. -/
def Claim.shuts (margin : Nat) (c : Claim) (puts : List Put) (i : Nat) (e : Entry) : Bool :=
  puts.any fun p => p.fences margin i e
    || (decide (c.readAt ≤ p.index)
      && decide (e.round = some (p.record.sampler, p.record.incarnation)))

/-- What has to be stale is neither seen nor old; what was spared is seen or
old. -/
def Claim.keeps (margin : Nat) (c : Claim) (clock : Nat) (puts : List Put)
    (i : Nat) (e : Entry) : Bool := (!c.shuts margin puts i e
      || (decide (c.entries.length ≤ i) && fresh margin clock e)) && (!spared puts i e
      || (decide (i < c.entries.length) || !fresh margin clock e))

/-- The steps that keep the verdicts. A group is written by a clock that is
not behind an earlier claim by more than the margin. -/
def orderly (cfg : GateConfig) (s : State) : Op → Bool
  | .put c clock =>
    (s.lease c.sampler).all c.knows && s.entries.zipIdx.all fun x =>
        !(x.1.round.any (·.1 = c.sampler))
          || c.keeps cfg.clockMargin clock s.puts x.2 x.1
  | .write e => s.puts.all fun p =>
    !(e.round.any (·.1 = p.record.sampler))
      || fresh cfg.clockMargin p.record.claimedAt e
  | _ => true

/-- Both read before either put; `winner` put later. -/
def Overlap (loser winner : Put) : Prop :=
  loser.record.sampler = winner.record.sampler ∧ loser.index < winner.index
    ∧ winner.readAt ≤ loser.index

structure Agreed (cfg : GateConfig) (s : State) : Prop where
  /-- A later claim supersedes what an earlier one held or superseded. -/
  kept : ∀ older ∈ s.puts, ∀ newer ∈ s.puts, older.index < newer.index →
    older.record.sampler = newer.record.sampler →
    ∀ n ∈ older.record.incarnation :: older.record.superseded, n ∈ newer.record.superseded
  fenced : ∀ older ∈ s.puts, ∀ newer ∈ s.puts, older.index < newer.index →
    older.record.sampler = newer.record.sampler →
    ∀ i e, s.entries[i]? = some e → older.fences cfg.clockMargin i e = true →
      newer.fences cfg.clockMargin i e = true
  spared : ∀ p ∈ s.puts, ∀ i e, s.entries[i]? = some e →
    spared s.puts i e = true → p.fences cfg.clockMargin i e = false
  lost : ∀ loser ∈ s.puts, ∀ winner ∈ s.puts, Overlap loser winner → ∀ i e, s.entries[i]? = some e →
      e.round = some (loser.record.sampler, loser.record.incarnation) →
      winner.fences cfg.clockMargin i e = true

variable {e : Entry} {inc : String} {puts : List Put} {p : Put} {i : Nat}

section Write

variable {cfg : GateConfig} {s s' : State}

theorem fences_written (hs : Sound cfg s) (hguard : orderly cfg s (.write e) = true)
    (hp : p ∈ s.puts) (hround : e.round = some (p.record.sampler, inc))
    (hinc : inc ∈ p.record.superseded) : p.fences cfg.clockMargin s.entries.length e = true := by
  have hfresh := all_eq_true.1 hguard p hp
  rw [hround] at hfresh
  simp only [any_some, decide_true, Bool.not_true, Bool.false_or] at hfresh
  exact fences_iff.2 ⟨inc, hround, hinc, (hs.puts p hp).seen, hfresh⟩

theorem spared_iff : spared puts i e = true ↔ ∃ p, firstFence puts e = some p ∧ i < p.seen := by
  unfold spared
  rw [Option.any_eq_true]
  simp only [decide_eq_true_eq]

theorem mem_of_firstFence (h : firstFence puts e = some p) : p ∈ puts :=
  mem_reverse.1 (mem_of_find?_eq_some h)

theorem agreed_write (hs : Sound cfg s) (ha : Agreed cfg s)
    (hguard : orderly cfg s (.write e) = true)
    (h : s.exec cfg (.write e) = some s') : Agreed cfg s' := by
  cases h
  refine ⟨ha.kept, fun older hold newer hnew hlt hsampler i x hx hfences => ?_,
    fun p hp i x hx hspared => ?_, fun loser hl winner hw hover i x hx hround => ?_⟩
    <;> rcases getElem?_snoc hx with hx | ⟨rfl, rfl⟩
  · exact ha.fenced older hold newer hnew hlt hsampler i x hx hfences
  · obtain ⟨inc, hround, hinc, -⟩ := fences_iff.1 hfences
    refine fences_written hs hguard hnew (hsampler ▸ hround) ?_
    exact ha.kept older hold newer hnew hlt hsampler inc (mem_cons_of_mem _ hinc)
  · exact ha.spared p hp i x hx hspared
  · obtain ⟨q, hq, hseen⟩ := spared_iff.1 hspared
    have := (hs.puts q (mem_of_firstFence hq)).seen
    omega
  · exact ha.lost loser hl winner hw hover i x hx hround
  · obtain ⟨hsampler, hlt, -⟩ := hover
    refine fences_written hs hguard hw (hsampler ▸ hround) ?_
    exact ha.kept loser hl winner hw hlt hsampler _ mem_cons_self

end Write

section Put

variable {cfg : GateConfig} {s s' : State} {c : Claim} {clock : Nat}

theorem newest_lease (hs : Sound cfg s) (hlease : s.lease p.record.sampler = some q)
    (hp : p ∈ s.puts) : p = q ∨ p.index < q.index := by
  obtain ⟨-, xs, ys, hputs, hxs⟩ := find?_eq_some_iff_append.1 hlease
  have horder := hs.order
  rw [hputs] at hp horder
  rcases mem_append.1 hp with hp | hp
  · have hother := hxs p hp
    rw [decide_eq_true rfl] at hother
    cases hother
  · rcases mem_cons.1 hp with rfl | hp
    · exact .inl rfl
    · exact .inr (rel_of_pairwise_cons (pairwise_append.1 horder).2.1 hp)

theorem kept_put {n : String} (hs : Sound cfg s) (ha : Agreed cfg s) (hc : c ∈ s.claims)
    (hknows : (s.lease c.sampler).all c.knows = true) (hp : p ∈ s.puts)
    (hsampler : p.record.sampler = c.sampler)
    (hn : n ∈ p.record.incarnation :: p.record.superseded) : n ∈ (c.record clock).superseded := by
  obtain ⟨q, hq⟩ : ∃ q, s.lease c.sampler = some q := by
    refine isSome_iff_exists.1 (find?_isSome.2 ⟨p, hp, ?_⟩)
    exact decide_eq_true hsampler
  have hqsampler : q.record.sampler = c.sampler := by simpa using find?_some hq
  have hqmem : q ∈ s.puts := mem_of_find?_eq_some hq
  -- What an earlier lease named is named by the newest.
  have hname : n ∈ q.record.incarnation :: q.record.superseded := by
    rcases newest_lease hs (hsampler ▸ hq) hp with rfl | hlt
    · exact hn
    · exact mem_cons_of_mem _ (ha.kept p hp q hqmem hlt (hsampler.trans hqsampler.symm) n hn)
  rw [hq] at hknows
  obtain ⟨hself, hall⟩ := of_decide_eq_true hknows
  refine mem_superseded.2 ⟨?_, hall n hname⟩
  rintro rfl
  rcases mem_cons.1 hname with h | h
  · exact hs.once c hc q hqmem hqsampler h.symm
  · exact hself h

section

variable (hguard : orderly cfg s (.put c clock) = true)
include hguard

theorem keeps_put (he : s.entries[i]? = some e) (hround : e.round = some (c.sampler, inc)) :
    c.keeps cfg.clockMargin clock s.puts i e = true := by
  have hall := (and_eq_true_iff.1 hguard).2
  have h := all_eq_true.1 hall (e, i) (mem_zipIdx_iff_getElem?.2 he)
  rw [hround] at h
  simpa using h

theorem shut_put (he : s.entries[i]? = some e) (hround : e.round = some (c.sampler, inc))
    (hshut : c.shuts cfg.clockMargin s.puts i e = true) :
    c.entries.length ≤ i ∧ fresh cfg.clockMargin clock e = true := by
  have hkeeps := (and_eq_true_iff.1 (keeps_put hguard he hround)).1
  rw [hshut] at hkeeps
  simpa using hkeeps

theorem spared_put (he : s.entries[i]? = some e) (hround : e.round = some (c.sampler, inc))
    (hspared : spared s.puts i e = true) :
    i < c.entries.length ∨ fresh cfg.clockMargin clock e = false := by
  have hkeeps := (and_eq_true_iff.1 (keeps_put hguard he hround)).2
  rw [hspared] at hkeeps
  simpa using hkeeps

end

theorem firstFence_cons : firstFence (p :: puts) e = (firstFence puts e).or (firstFence [p] e) := by
  unfold firstFence
  rw [reverse_cons, find?_append]
  rfl

theorem not_fences_of_first {margin : Nat} (h : firstFence puts e = none) (hp : p ∈ puts) :
    p.fences margin i e = false := by
  refine eq_false_iff.2 fun hfences => ?_
  obtain ⟨inc, hround, hinc, -⟩ := fences_iff.1 hfences
  have hnone := find?_eq_none.1 h p (mem_reverse.2 hp)
  rw [hround] at hnone
  exact hnone (decide_eq_true ⟨rfl, hinc⟩)

theorem pairs_cons {R : Put → Put → Prop} {new : Put} (hlast : ∀ p ∈ puts, p.index < new.index)
    (hold : ∀ a ∈ puts, ∀ b ∈ puts, a.index < b.index → R a b) (hnew : ∀ a ∈ puts, R a new) :
    ∀ a ∈ new :: puts, ∀ b ∈ new :: puts, a.index < b.index → R a b := by
  intro a ha b hb hlt
  rcases mem_cons.1 ha with rfl | ha' <;> rcases mem_cons.1 hb with rfl | hb
  · exact absurd hlt (Nat.lt_irrefl _)
  · exact absurd hlt (Nat.not_lt_of_lt (hlast b hb))
  · exact hnew a ha'
  · exact hold a ha' b hb hlt

theorem agreed_put (hs : Sound cfg s) (ha : Agreed cfg s)
    (hguard : orderly cfg s (.put c clock) = true)
    (h : s.exec cfg (.put c clock) = some s') : Agreed cfg s' := by
  dsimp only [State.exec] at h
  split at h
  case isFalse => cases h
  next hc =>
  cases h
  have hkept : ∀ p ∈ s.puts, p.record.sampler = c.sampler →
      ∀ n ∈ p.record.incarnation :: p.record.superseded, n ∈ (c.record clock).superseded :=
    fun p hp hsampler n hn =>
      kept_put hs ha hc (and_eq_true_iff.1 hguard).1 hp hsampler hn
  have hlost : ∀ a ∈ s.puts, ∀ b ∈ s.puts, a.index < b.index →
      a.record.sampler = b.record.sampler → b.readAt ≤ a.index → ∀ i e, s.entries[i]? = some e →
        e.round = some (a.record.sampler, a.record.incarnation) →
        b.fences cfg.clockMargin i e = true := fun a ha' b hb hlt hsampler hread =>
      ha.lost a ha' b hb ⟨hsampler, hlt, hread⟩
  refine ⟨pairs_cons hs.index ha.kept hkept,
    pairs_cons hs.index ha.fenced fun older hold hsampler i e he hfences => ?_,
    fun p hp i e he hspared => ?_, fun loser hl winner hw hover => pairs_cons hs.index hlost
      (fun a ha' hsampler hread i e he hround => ?_) loser hl winner hw hover.2.1 hover.1 hover.2.2⟩
  · obtain ⟨inc, hround, hinc, -⟩ := fences_iff.1 hfences
    rw [hsampler] at hround
    obtain ⟨hunseen, hfresh⟩ := shut_put hguard he hround
      (any_eq_true.2 ⟨older, hold, by rw [hfences, Bool.true_or]⟩)
    exact fences_iff.2 ⟨inc, hround, hkept older hold hsampler inc (mem_cons_of_mem _ hinc),
      hunseen, hfresh⟩
  · refine eq_false_iff.2 fun hfences => ?_
    obtain ⟨q, hq, hseen⟩ := spared_iff.1 hspared
    rw [firstFence_cons, or_eq_some_iff] at hq
    rcases mem_cons.1 hp with rfl | hp
    · obtain ⟨inc, hround, -, hunseen, hfresh⟩ := fences_iff.1 hfences
      rcases hq with hq | ⟨-, hq⟩
      · rcases spared_put hguard he hround (spared_iff.2 ⟨q, hq, hseen⟩) with h | h
        · exact Nat.not_lt_of_le hunseen h
        · exact eq_false_iff.1 h hfresh
      · rw [mem_singleton.1 (mem_of_firstFence hq)] at hseen
        exact Nat.not_lt_of_le hunseen hseen
    · rcases hq with hq | ⟨hnone, -⟩
      · have := ha.spared p hp i e he (spared_iff.2 ⟨q, hq, hseen⟩)
        exact eq_false_iff.1 this hfences
      · exact eq_false_iff.1 (not_fences_of_first hnone hp) hfences
  · have hround' : e.round = some (c.sampler, a.record.incarnation) := by
      rw [hround, hsampler]
      rfl
    obtain ⟨hunseen, hfresh⟩ := shut_put hguard he hround'
      (any_eq_true.2 ⟨a, ha', by simp [hread, hround]⟩)
    exact fences_iff.2 ⟨_, hround', hkept a ha' hsampler _ mem_cons_self, hunseen, hfresh⟩

end Put

variable {cfg : GateConfig} {s : State}

theorem agreed_of_reachable (h : (lease cfg (orderly cfg)).Reachable s) : Agreed cfg s := by
  refine System.invariant ?_ ?_ h
  · rintro _ rfl
    exact ⟨nofun, nofun, nofun, nofun⟩
  · rintro s s' hreach ha ⟨op, hguard, hexec⟩
    have hs := sound_of_reachable hreach
    cases op with
    | read sampler inc view earlier ok =>
      obtain ⟨-, hexec⟩ := ite_none_left_eq_some.1 hexec
      cases hexec
      exact { ha with }
    | put c clock => exact agreed_put hs ha hguard hexec
    | write entry => exact agreed_write hs ha hguard hexec
    | judge position view reads =>
      dsimp only [State.exec] at hexec
      split at hexec
      · cases hexec
      split at hexec
      case isFalse => cases hexec
      cases hexec
      exact { ha with }

theorem verdict_by {v : Verdict} (hs : Sound cfg s) (hv : v ∈ s.verdicts) (hp : p ∈ s.puts)
    (hlease : v.lease = some p.record) (he : s.entries[v.position]? = some e) :
    ∃ inc, e.round = some (p.record.sampler, inc)
      ∧ (v.stale.isSome = true ↔ p.fences cfg.clockMargin v.position e = true) := by
  cases hs.verdicts v hv with
  | unread position => cases hlease
  | ruled position q x inc hq hx hround =>
    cases he.symm.trans hx
    have hrec : q.record = p.record := some.inj hlease
    rw [hrec] at hround ⊢
    exact ⟨inc, hround, ruling_iff (hs.puts p hp) hx hround⟩

/-- What a claim fences is fenced by every claim of its sampler that is not
older. -/
theorem Agreed.fences_le (hs : Sound cfg s) (ha : Agreed cfg s) (hp : p ∈ s.puts)
    (hq : q ∈ s.puts) (hle : q.index ≤ p.index) (he : s.entries[i]? = some e)
    (hround : e.round = some (p.record.sampler, inc))
    (hfences : q.fences cfg.clockMargin i e = true) : p.fences cfg.clockMargin i e = true := by
  have hsampler : q.record.sampler = p.record.sampler := by
    obtain ⟨n, hn, -⟩ := fences_iff.1 hfences
    exact (Prod.mk.inj (some.inj (hn.symm.trans hround))).1
  rcases Nat.lt_or_eq_of_le hle with hlt | heq
  · exact ha.fenced q hq p hp hlt hsampler i e he hfences
  · -- Two leases of one index are one lease.
    have hsame : q = p := by
      by_contra hne
      have hsymm : Std.Symm fun a b : Put => a.index ≠ b.index := ⟨fun a b h => h.symm⟩
      have hapart := hs.order.imp fun h => (Nat.ne_of_lt h).symm
      exact hapart.forall hq hp hne heq
    exact hsame ▸ hfences

/-- In an orderly run, of any two claims of a sampler the later one supersedes
the earlier claimer. And for every verdict: an entry the first superseding
claimer saw is not stale; and where the verdict is by the lease of a claim
`p`, an entry that a claim not newer than `p` fences is stale, and where two
claims overlapped and `p` is not older than the winner, every group of the
loser is stale. -/
theorem fenced_groups_stale (cfg : GateConfig) (s : State)
    (h : (lease cfg (orderly cfg)).Reachable s) : (∀ q ∈ s.puts, ∀ p ∈ s.puts,
      q.record.sampler = p.record.sampler → q.index < p.index →
        q.record.incarnation ∈ p.record.superseded)
    ∧ ∀ v ∈ s.verdicts, ∀ e, s.entries[v.position]? = some e →
      (spared s.puts v.position e = true → v.stale = none) ∧ ∀ p ∈ s.puts, v.lease = some p.record →
        (∀ q ∈ s.puts, q.index ≤ p.index →
          q.fences cfg.clockMargin v.position e = true → v.stale.isSome = true)
        ∧ (∀ loser ∈ s.puts, ∀ winner ∈ s.puts, Overlap loser winner → winner.index ≤ p.index →
          e.round = some (loser.record.sampler, loser.record.incarnation) →
          v.stale.isSome = true) := by
  have hs := sound_of_reachable h
  have ha := agreed_of_reachable h
  refine ⟨fun q hq p hp hsampler hlt => ha.kept q hq p hp hlt hsampler _ mem_cons_self,
    fun v hv e he => ⟨fun hspared => ?_, fun p hp hlease => ?_⟩⟩
  · cases hs.verdicts v hv with
    | unread position => rfl
    | ruled position p x inc hp hx hround =>
      cases he.symm.trans hx
      obtain ⟨-, -, hstale⟩ := verdict_by hs hv hp rfl he
      rw [ha.spared p hp position e he hspared] at hstale
      exact not_isSome_iff_eq_none.1 fun h => nomatch hstale.1 h
  · obtain ⟨inc, hround, hby⟩ := verdict_by hs hv hp hlease he
    have hstale : ∀ q ∈ s.puts, q.index ≤ p.index → q.fences cfg.clockMargin v.position e = true →
        v.stale.isSome = true := fun q hq hle hfences =>
      hby.2 (ha.fences_le hs hp hq hle he hround hfences)
    exact ⟨hstale, fun loser hl winner hw hover hle hloser =>
      hstale winner hw hle (ha.lost loser hl winner hw hover v.position e he hloser)⟩

def sampleGate : GateConfig := ⟨30000, 60000⟩

def group (inc : String) (appendedAt : Nat) : Entry := ⟨some ("s", inc), appendedAt⟩

def claimA : Claim := ⟨"s", "a", [], [], none, 0⟩

def leaseA : Lease := claimA.record 1000

def joinA : List Op := [.read "s" "a" 0 [] true, .put claimA 1000]

def ask (position now : Nat) (lease : Lease) : Op :=
  .judge position (position + 1) ⟨now, some lease, now, some lease⟩

/-- "b" and "c" both read the lease of "a"; "c" was told of "b" and puts
last. Then "a" and "b" still write. -/
def toldOps : List Op :=
  let b : Claim := ⟨"s", "b", [group "a" 2000], [], some leaseA, 1⟩
  let c : Claim := ⟨"s", "c", [group "a" 2000], ["b"], some leaseA, 1⟩
  joinA ++ [.write (group "a" 2000), .read "s" "b" 1 [] true,
    .read "s" "c" 1 ["b"] true, .put b 3000, .put c 4000,
    .write (group "a" 70000), .write (group "b" 70000),
    ask 0 0 (c.record 4000), ask 1 0 (c.record 4000), ask 2 0 (c.record 4000)]

/-- The verdicts of a run, the oldest first: the position, the holder of the
lease, and whether the entry is stale. -/
def verdictsOf (allowed : State → Op → Bool) (ops : List Op) :
    Option (List (Nat × Option String × Bool)) :=
  (System.play allowed (State.exec sampleGate) State.new ops).map fun s =>
    s.verdicts.reverse.map fun v =>
      (v.position, v.lease.map Lease.incarnation, v.stale.isSome)

/-- An orderly run with a sealed group, a late group and a lost claim. -/
theorem fenced_groups_stale_told : verdictsOf (orderly sampleGate) toldOps
        = some [(0, some "c", false), (1, some "c", true), (2, some "c", true)]
      ∧ ∃ s, System.play (orderly sampleGate) (State.exec sampleGate) State.new toldOps = some s
        ∧ ∀ v ∈ s.verdicts, ∀ e, s.entries[v.position]? = some e →
          spared s.puts v.position e = true → v.stale = none := by
  refine ⟨by decide +kernel, ?_⟩
  have hplay : (System.play (orderly sampleGate) (State.exec sampleGate)
      State.new toldOps).isSome = true := by decide +kernel
  obtain ⟨s, hs⟩ := isSome_iff_exists.1 hplay
  exact ⟨s, hs, fun v hv e he =>
    ((fenced_groups_stale sampleGate s (System.reachable_play hs)).2 v hv e he).1⟩

/-- "b" claims, "a" writes a late group, and "c" claims and SEES it. -/
def lateOps : List Op :=
  let b : Claim := ⟨"s", "b", [], [], some leaseA, 1⟩
  let c : Claim := ⟨"s", "c", [group "a" 70000], [], some (b.record 3000), 2⟩
  joinA ++ [.read "s" "b" 0 [] true, .put b 3000, .write (group "a" 70000),
    ask 0 0 (b.record 3000), .read "s" "c" 1 [] true, .put c 71000,
    ask 0 40000 (c.record 71000)]

/-- "b" seals the group of "a", and "c" claims before it sees that group. -/
def sealedOps : List Op :=
  let b : Claim := ⟨"s", "b", [group "a" 2000], [], some leaseA, 1⟩
  let c : Claim := ⟨"s", "c", [], [], some (b.record 3000), 2⟩
  joinA ++ [.write (group "a" 2000), .read "s" "b" 1 [] true, .put b 3000,
    ask 0 0 (b.record 3000), .read "s" "c" 0 [] true, .put c 4000,
    ask 0 40000 (c.record 4000)]

/-- "b" and "c" both read the lease of "a", and both write. -/
def overlapOps : List Op :=
  let b : Claim := ⟨"s", "b", [], [], some leaseA, 1⟩
  let c : Claim := ⟨"s", "c", [], [], some leaseA, 1⟩
  joinA ++ [.read "s" "b" 0 [] true, .read "s" "c" 0 [] true, .put b 3000,
    .put c 4000, .write (group "b" 5000), .write (group "c" 5000),
    ask 0 0 (c.record 4000), ask 1 0 (c.record 4000)]

/-- A late group that was stale is accepted after a further claim; a group
its first superseding claimer saw is stale after a further claim; and the
groups of two overlapping claims are both accepted. -/
theorem fence_undone : verdictsOf (fun _ _ => true) lateOps
        = some [(0, some "b", true), (0, some "c", false)]
      ∧ verdictsOf (fun _ _ => true) sealedOps
        = some [(0, some "b", false), (0, some "c", true)]
      ∧ verdictsOf (fun _ _ => true) overlapOps
        = some [(0, some "c", false), (1, some "c", false)] :=
  ⟨by decide +kernel, by decide +kernel, by decide +kernel⟩

end Yeto.Incarnation
