/-
What a claim puts and what the gate says by it.

The verdict by a lease is decided by the claim that put it and the entry
(`Put.fences`, `ruling_iff`). The rank the gate counts and the counts the
claimer sealed agree because both look at prefixes of one buffer
(`rank_le_count_iff`). `Sound` collects what holds in EVERY run.
-/
import Yeto.Incarnation.Model
import Mathlib.Data.List.Pairwise

namespace Yeto.Incarnation

open Lib List Entry

variable {clock i margin position view : Nat} {p : Put} {inc n : String} {now : Nat}
  {reads : Reads} {key : String × String}

theorem mem_addNew {acc : List String} {x y : String} : y ∈ addNew acc x ↔ y ∈ acc ∨ y = x := by
  unfold addNew
  split
  · next hx => exact ⟨.inl, fun h => h.elim id fun h => h ▸ hx⟩
  · rw [mem_append, mem_singleton]

theorem mem_foldl_addNew {xs : List String} : ∀ {acc : List String}
    {y : String}, y ∈ xs.foldl addNew acc ↔ y ∈ acc ∨ y ∈ xs := by
  induction xs with
  | nil => simp
  | cons x xs ih =>
    intro acc y
    rw [foldl_cons, ih, mem_addNew, mem_cons, or_assoc]

theorem lookup_counts {names keys : List String} :
    ((keys.map fun n => (n, names.count n)).lookup inc).getD 0
      = if inc ∈ keys then names.count inc else 0 := by
  induction keys with
  | nil => rfl
  | cons k keys ih =>
    rw [map_cons, lookup_cons]
    by_cases hk : inc = k
    · subst hk
      simp
    · have hbeq : (inc == k) = false := beq_eq_false_iff_ne.2 hk
      rw [hbeq]
      simp [hk, ih]

def Claim.names (c : Claim) : List String := c.replaced ++ incarnations c.entries c.sampler

theorem filter_sealed {c : Claim} : (sealedCounts c.entries c.sampler).filter (·.1 ≠ c.incarnation)
      = (((incarnations c.entries c.sampler).foldl addNew []).filter
          (· ≠ c.incarnation)).map fun inc =>
            (inc, (incarnations c.entries c.sampler).count inc) := by
  unfold sealedCounts
  rw [filter_map]
  rfl

variable {c : Claim}

theorem mem_superseded : n ∈ (c.record clock).superseded ↔ n ≠ c.incarnation ∧ n ∈ c.names := by
  show n ∈ (((sealedCounts c.entries c.sampler).filter
    (·.1 ≠ c.incarnation)).map Prod.fst).foldl addNew
      ((c.replaced.filter (· ≠ c.incarnation)).foldl addNew []) ↔ _
  rw [filter_sealed, map_map, mem_foldl_addNew, mem_foldl_addNew]
  unfold Claim.names
  simp only [not_mem_nil, false_or, mem_filter, mem_append,
    mem_map, Function.comp_apply, exists_eq_right, mem_foldl_addNew, decide_eq_true_eq]
  rw [← or_and_right, and_comm]

theorem sealedOf_record (hn : n ≠ c.incarnation) :
    (c.record clock).sealedOf n = (incarnations c.entries c.sampler).count n := by
  show (List.lookup n ((sealedCounts c.entries c.sampler).filter (·.1 ≠ c.incarnation))).getD 0 = _
  rw [filter_sealed, lookup_counts]
  split
  · rfl
  · next hmem =>
    refine (count_eq_zero.2 fun h => hmem ?_).symm
    rw [mem_filter, mem_foldl_addNew]
    exact ⟨.inr h, decide_eq_true hn⟩

/-- The rank of a position among the entries with this round record. -/
def rank (entries : List Entry) (position : Nat) (key : String × String) : Nat :=
  ((entries.take (position + 1)).filterMap Entry.round).count key

theorem count_incarnations {entries : List Entry} {sampler : String} :
    (incarnations entries sampler).count inc
      = (entries.filterMap Entry.round).count (sampler, inc) := by
  unfold incarnations
  induction entries with
  | nil => rfl
  | cons e entries ih =>
    rw [filterMap_cons, filterMap_cons]
    cases hround : e.round with
    | none => exact ih
    | some r =>
      obtain ⟨n, m⟩ := r
      by_cases hn : n = sampler
      · subst hn
        simp [count_cons, ih]
      · simp [ih, hn]

theorem rank_append {entries more : List Entry} (h : position < entries.length) :
    rank (entries ++ more) position key = rank entries position key := by
  unfold rank
  rw [take_append_of_le_length (by omega)]

variable {entries : List Entry} {e : Entry}

/-- An entry's rank is within what a claimer counted exactly where the
claimer saw the entry. -/
theorem rank_le_count_iff {seen : Nat} {sampler : String} (he : entries[i]? = some e)
    (hround : e.round = some (sampler, inc)) : rank entries i (sampler, inc)
        ≤ (incarnations (entries.take seen) sampler).count inc ↔ i < seen := by
  rw [count_incarnations]
  unfold rank
  have hmono : ∀ {m n : Nat}, m ≤ n → ((entries.take m).filterMap round).count (sampler, inc)
        ≤ ((entries.take n).filterMap round).count (sampler, inc) :=
    fun h => ((take_sublist_take_left h).filterMap _).count_le _
  refine ⟨fun hle => Nat.lt_of_not_le fun hge => ?_, fun hlt => hmono hlt⟩
  have hbefore := hmono hge
  rw [take_add_one, he] at hle
  simp only [Option.toList_some, filterMap_append, count_append] at hle
  have hone : ([e].filterMap round).count (sampler, inc) = 1 := by simp [hround]
  omega

/-- The stamp is not older than the clock by more than the margin. An entry
without a stamp is never old. -/
def fresh (margin clock : Nat) (e : Entry) : Bool :=
  decide (e.appendedAt = 0 ∨ clock ≤ e.appendedAt + margin)

/-- The entry at position `i` is of an incarnation the claim superseded, was
not seen by the claimer, and is not old. An entry written after the claim is
not seen by it. -/
def Put.fences (margin : Nat) (p : Put) (i : Nat) (e : Entry) : Bool :=
  e.round.any fun r => decide (r.1 = p.record.sampler ∧ r.2 ∈ p.record.superseded ∧ p.seen ≤ i)
      && fresh margin p.record.claimedAt e

theorem fences_iff : p.fences margin i e = true ↔ ∃ inc, e.round = some (p.record.sampler, inc)
      ∧ inc ∈ p.record.superseded ∧ p.seen ≤ i ∧ fresh margin p.record.claimedAt e = true := by
  unfold Put.fences
  rw [Option.any_eq_true]
  constructor
  · rintro ⟨⟨n, inc⟩, hround, h⟩
    rw [Bool.and_eq_true, decide_eq_true_eq] at h
    obtain ⟨⟨rfl, hinc, hseen⟩, hfresh⟩ := h
    exact ⟨inc, hround, hinc, hseen, hfresh⟩
  · rintro ⟨inc, hround, hinc, hseen, hfresh⟩
    refine ⟨_, hround, ?_⟩
    rw [Bool.and_eq_true, decide_eq_true_eq]
    exact ⟨⟨rfl, hinc, hseen⟩, hfresh⟩

/-- What every put lease is: it does not supersede its holder, and sealed the
groups its claimer saw of the others. -/
structure PutOk (entries : List Entry) (p : Put) : Prop where
  seen : p.seen ≤ entries.length
  holder : p.record.incarnation ∉ p.record.superseded
  sealed : ∀ n ≠ p.record.incarnation, p.record.sealedOf n
    = (incarnations (entries.take p.seen) p.record.sampler).count n

theorem ruling_iff (hp : PutOk entries p) (he : entries[i]? = some e)
    (hround : e.round = some (p.record.sampler, inc)) : (ruling margin p.record p.record.sampler inc
        (rank entries i (p.record.sampler, inc)) e.appendedAt).isSome = true
      ↔ p.fences margin i e = true := by
  have hfences : p.fences margin i e = true ↔ inc ∈ p.record.superseded
      ∧ p.seen ≤ i ∧ fresh margin p.record.claimedAt e = true := by
    rw [fences_iff, hround]
    constructor
    · rintro ⟨n, hn, h⟩
      cases hn
      exact h
    · exact fun h => ⟨inc, rfl, h⟩
  rw [hfences]
  unfold ruling
  by_cases hinc : inc ∈ p.record.superseded
  · have hne : inc ≠ p.record.incarnation := fun h => hp.holder (h ▸ hinc)
    rw [if_neg (by simp [hinc, Ne.symm hne]), hp.sealed inc hne]
    by_cases hseen : i < p.seen
    · rw [if_pos ((rank_le_count_iff he hround).2 hseen)]
      simp [Nat.not_le_of_lt hseen]
    rw [if_neg fun h => hseen ((rank_le_count_iff he hround).1 h)]
    unfold fresh
    by_cases hold : e.appendedAt ≠ 0 ∧ e.appendedAt + margin < p.record.claimedAt
    · rw [if_pos hold]
      have hstale : ¬ (e.appendedAt = 0 ∨ p.record.claimedAt ≤ e.appendedAt + margin) := by omega
      simp [hstale]
    · rw [if_neg hold]
      have hfresh : e.appendedAt = 0 ∨ p.record.claimedAt ≤ e.appendedAt + margin := by omega
      simp [hinc, hfresh, Nat.le_of_not_lt hseen]
  · simp [hinc]

def Known (puts : List Put) (sampler : String) (lease : Lease) : Prop :=
  ∃ p ∈ puts, p.record = lease ∧ lease.sampler = sampler

theorem known_of_answers {s : State} {sampler : String} {lease : Lease}
    (h : s.answers sampler (some lease) = true) : Known s.puts sampler lease := by
  obtain ⟨p, hp, h⟩ := any_eq_true.1 h
  exact ⟨p, hp, of_decide_eq_true h⟩

/-- The gate counted the entries below `upto`, and remembers leases that
were there. -/
structure GateOk (entries : List Entry) (puts : List Put) (g : Gate) : Prop where
  seen : g.seen = (entries.take g.upto).filterMap Entry.round
  upto : g.upto ≤ entries.length
  cached : ∀ sampler at_ lease, (sampler, at_, some lease) ∈ g.leases → Known puts sampler lease

theorem mem_of_lookup {α : Type} {l : List (String × α)} {k : String} {v : α}
    (h : l.lookup k = some v) : (k, v) ∈ l := by
  obtain ⟨l₁, l₂, rfl, -⟩ := lookup_eq_some_iff.1 h
  exact mem_append_cons_self

section Gate

variable {puts : List Put} {g : Gate} {sampler : String}

section

variable (hg : GateOk entries puts g)
include hg

theorem ordinal_ok (h : position < (entries.take view).length) :
    GateOk entries puts (g.ordinal (entries.take view) position key).1
      ∧ (g.ordinal (entries.take view) position key).2 = rank entries position key := by
  have hlen : position < entries.length := Nat.lt_of_lt_of_le h (length_take_le' _ _)
  have hcount : ∀ upto ≤ position + 1, (entries.take upto).filterMap round
          ++ (((entries.take view).take (position + 1)).drop upto).filterMap round
        = (entries.take (position + 1)).filterMap round := by
    intro upto hupto
    rw [length_take] at h
    rw [← filterMap_append, take_take, Nat.min_eq_left (by omega)]
    have htake : entries.take upto = (entries.take (position + 1)).take upto := by
      rw [take_take, Nat.min_eq_left hupto]
    rw [htake, take_append_drop]
  have hmin : min (position + 1) (entries.take view).length = position + 1 := Nat.min_eq_left h
  unfold Gate.ordinal
  by_cases hreset : position < g.upto
  · have hzero := hcount 0 (Nat.zero_le _)
    rw [take_zero, filterMap_nil] at hzero
    simp only [hreset, if_true, hmin, hzero]
    exact ⟨⟨by rw [Nat.zero_max], Nat.max_le.2 ⟨Nat.zero_le _, hlen⟩, hg.cached⟩, rfl⟩
  · have hupto := hcount g.upto (by omega)
    rw [← hg.seen] at hupto
    simp only [hreset, if_false, hmin, hupto]
    refine ⟨⟨?_, Nat.max_le.2 ⟨hg.upto, hlen⟩, hg.cached⟩, rfl⟩
    rw [Nat.max_eq_right (by omega)]

theorem lease_ok {cfg : GateConfig} {force : Bool} {answer : Option Lease}
    (hanswer : ∀ l, answer = some l → Known puts sampler l) :
    GateOk entries puts (g.lease cfg sampler force now answer).1
      ∧ ∀ l, (g.lease cfg sampler force now answer).2 = some l → Known puts sampler l := by
  have hread : GateOk entries puts { g with leases := (sampler, now, answer) :: g.leases } := by
    refine ⟨hg.seen, hg.upto, fun n at_ l hl => ?_⟩
    rcases mem_cons.1 hl with hl | hl
    · cases hl
      exact hanswer l rfl
    · exact hg.cached n at_ l hl
  unfold Gate.lease
  split
  · exact ⟨hread, hanswer⟩
  · next at_ cached hcached =>
    split
    · exact ⟨hread, hanswer⟩
    · refine ⟨hg, fun l hl => hg.cached sampler at_ l ?_⟩
      exact mem_of_lookup (hl ▸ hcached)

theorem judging_ok {cfg : GateConfig} {later : Nat} {first second : Option Lease}
    (hfirst : ∀ l, first = some l → Known puts sampler l)
    (hsecond : ∀ l, second = some l → Known puts sampler l) :
    GateOk entries puts (g.judging cfg sampler inc now later first second).1
      ∧ ∀ l, (g.judging cfg sampler inc now later first second).2 = some l →
        Known puts sampler l := by
  obtain ⟨hg₁, hl₁⟩ := lease_ok hg hfirst
  obtain ⟨hg₂, hl₂⟩ := lease_ok hg₁ hsecond
  dsimp only [Gate.judging]
  split
  · exact ⟨hg₁, hl₁⟩
  next lease hlease =>
  split
  · refine ⟨hg₂, fun l hl => ?_⟩
    cases hnewer : ((g.lease cfg sampler false now first).1.lease cfg
        sampler true later second).2 with
    | none =>
      rw [hnewer] at hl
      cases hl
      exact hl₁ lease hlease
    | some newer =>
      rw [hnewer] at hl
      cases hl
      exact hl₂ newer hnewer
  · exact ⟨hg₁, hl₁⟩

/-- What a verdict says: nothing where no lease was read, else the ruling of
a lease that was put. -/
inductive VerdictOk (margin : Nat) (entries : List Entry) (puts : List Put) : Verdict → Prop
  | unread (position : Nat) : VerdictOk margin entries puts ⟨position, none, none⟩
  | ruled (position : Nat) (p : Put) (e : Entry) (inc : String)
      (hp : p ∈ puts) (he : entries[position]? = some e)
      (hround : e.round = some (p.record.sampler, inc)) :
      VerdictOk margin entries puts ⟨position, some p.record,
        ruling margin p.record p.record.sampler inc
          (rank entries position (p.record.sampler, inc)) e.appendedAt⟩

theorem verdict_ok {cfg : GateConfig} (he : (entries.take view)[position]? = some e)
    (hfirst : ∀ r l, e.round = some r → reads.first = some l → Known puts r.1 l)
    (hsecond : ∀ r l, e.round = some r → reads.second = some l → Known puts r.1 l) :
    GateOk entries puts (g.verdict cfg (entries.take view) e position reads).1
      ∧ VerdictOk cfg.clockMargin entries puts
        (g.verdict cfg (entries.take view) e position reads).2 := by
  obtain ⟨hlen, -⟩ := List.getElem?_eq_some_iff.1 he
  unfold Gate.verdict
  cases hround : e.round with
  | none => exact ⟨hg, .unread position⟩
  | some r =>
    obtain ⟨sampler, inc⟩ := r
    obtain ⟨hg₁, hrank⟩ := ordinal_ok hg hlen
    obtain ⟨hg₂, hknown⟩ := judging_ok hg₁ (hfirst _ · hround) (hsecond _ · hround)
    dsimp only
    split
    · exact ⟨hg₂, .unread position⟩
    next lease hlease =>
    obtain ⟨p, hp, rfl, rfl⟩ := hknown lease hlease
    refine ⟨{ hg₂ with }, ?_⟩
    rw [hrank]
    refine .ruled position p e inc hp ?_ hround
    rw [List.getElem?_take] at he
    split at he
    · exact he
    · cases he

end

end Gate

structure Sound (cfg : GateConfig) (s : State) : Prop where
  views : ∀ c ∈ s.claims, c.entries <+: s.entries
  /-- An incarnation claims once. -/
  apart : s.claims.Pairwise fun c d =>
    c.sampler = d.sampler → c.incarnation ≠ d.incarnation
  once : ∀ c ∈ s.claims, ∀ p ∈ s.puts, p.record.sampler = c.sampler →
    p.record.incarnation ≠ c.incarnation
  order : s.puts.Pairwise fun newer older => older.index < newer.index
  index : ∀ p ∈ s.puts, p.index < s.puts.length
  puts : ∀ p ∈ s.puts, PutOk s.entries p
  gate : GateOk s.entries s.puts s.gate
  verdicts : ∀ v ∈ s.verdicts, VerdictOk cfg.clockMargin s.entries s.puts v

theorem putOk_record {s : State} {index : Nat} (hview : c.entries <+: s.entries) :
    PutOk s.entries ⟨c.record clock, index, c.readAt, c.entries.length⟩ where
  seen := hview.length_le
  holder h := (mem_superseded.1 h).1 rfl
  sealed n hn := by
    rw [sealedOf_record hn, ← prefix_iff_eq_take.1 hview]
    rfl

section Step

variable {cfg : GateConfig} {s s' : State}

variable {entries' : List Entry}

theorem GateOk.mono {puts puts' : List Put} {g : Gate} (h : GateOk entries puts g)
    (hgrow : entries <+: entries') (hputs : puts ⊆ puts') : GateOk entries' puts' g where
  seen := by
    obtain ⟨more, rfl⟩ := hgrow
    rw [take_append_of_le_length h.upto, h.seen]
  upto := Nat.le_trans h.upto hgrow.length_le
  cached n at_ l hl := by
    obtain ⟨p, hp, hl⟩ := h.cached n at_ l hl
    exact ⟨p, hputs hp, hl⟩

theorem VerdictOk.mono {puts puts' : List Put} {v : Verdict} (h : VerdictOk margin entries puts v)
    (hgrow : entries <+: entries') (hputs : puts ⊆ puts') : VerdictOk margin entries' puts' v := by
  obtain ⟨more, rfl⟩ := hgrow
  cases h with
  | unread position => exact .unread position
  | ruled position p e inc hp he hround =>
    obtain ⟨hlen, -⟩ := List.getElem?_eq_some_iff.1 he
    rw [← rank_append hlen]
    exact .ruled position p e inc (hputs hp) (by rw [List.getElem?_append_left hlen, he]) hround

theorem PutOk.mono (h : PutOk entries p) (more : List Entry) : PutOk (entries ++ more) p where
  seen := Nat.le_trans h.seen (by simp)
  holder := h.holder
  sealed n hn := by rw [take_append_of_le_length h.seen, h.sealed n hn]

theorem sound_read {sampler : String} {earlier : List String} {ok : Bool} (hs : Sound cfg s)
    (h : s.exec cfg (.read sampler inc view earlier ok) = some s') : Sound cfg s' := by
  dsimp only [State.exec] at h
  split at h
  · cases h
  next hclaimed =>
  cases h
  -- The new claim is apart from all others: no earlier one has its name.
  unfold State.claimed at hclaimed
  rw [Bool.or_eq_true, not_or] at hclaimed
  have hclaims : ∀ c ∈ s.claims, c.sampler = sampler → c.incarnation ≠ inc :=
    fun c hc hsampler hinc => hclaimed.1 (any_eq_true.2 ⟨c, hc, decide_eq_true ⟨hsampler, hinc⟩⟩)
  have hputs : ∀ p ∈ s.puts, p.record.sampler = sampler → p.record.incarnation ≠ inc :=
    fun p hp hsampler hinc => hclaimed.2 (any_eq_true.2 ⟨p, hp, decide_eq_true ⟨hsampler, hinc⟩⟩)
  refine ⟨fun c hc => ?_, ?_, fun c hc => ?_, hs.order, hs.index, hs.puts, hs.gate, hs.verdicts⟩
  · rcases mem_snoc.1 hc with hc | rfl
    · exact hs.views c hc
    · exact take_prefix view s.entries
  · refine pairwise_append.2 ⟨hs.apart, pairwise_singleton _ _, ?_⟩
    intro c hc d hd hsampler
    rw [mem_singleton.1 hd] at hsampler ⊢
    exact hclaims c hc hsampler
  · rcases mem_snoc.1 hc with hc | rfl
    · exact hs.once c hc
    · exact hputs

theorem nodup_of_apart {claims : List Claim} (h : claims.Pairwise fun c d =>
    c.sampler = d.sampler → c.incarnation ≠ d.incarnation) : claims.Nodup :=
  h.imp fun hapart heq => hapart (congrArg _ heq) (congrArg _ heq)

theorem sound_put (hs : Sound cfg s) (h : s.exec cfg (.put c clock) = some s') : Sound cfg s' := by
  dsimp only [State.exec] at h
  split at h
  case isFalse => cases h
  next hc =>
  cases h
  have hsub : s.claims.erase c ⊆ s.claims := erase_subset
  refine ⟨fun d hd => hs.views d (hsub hd), hs.apart.sublist erase_sublist,
    fun d hd => forall_mem_cons.2 ⟨fun hsampler hinc => ?_, hs.once d (hsub hd)⟩, ?_, ?_, ?_,
    hs.gate.mono prefix_rfl (subset_cons_self _ _),
    fun v hv => (hs.verdicts v hv).mono prefix_rfl (subset_cons_self _ _)⟩
  · have hne := ((nodup_of_apart hs.apart).mem_erase_iff.1 hd).1
    have hsymm : Std.Symm fun c d : Claim =>
        c.sampler = d.sampler → c.incarnation ≠ d.incarnation :=
      ⟨fun c d h hsampler => (h hsampler.symm).symm⟩
    exact hs.apart.forall hc (hsub hd) hne.symm hsampler hinc
  · exact pairwise_cons.2 ⟨hs.index, hs.order⟩
  · refine forall_mem_cons.2 ⟨Nat.lt_succ_self _, fun p hp => ?_⟩
    exact Nat.lt_succ_of_lt (hs.index p hp)
  · exact forall_mem_cons.2 ⟨putOk_record (hs.views c hc), hs.puts⟩

theorem sound_write {entry : Entry} (hs : Sound cfg s)
    (h : s.exec cfg (.write entry) = some s') : Sound cfg s' := by
  cases h
  exact ⟨fun c hc => (hs.views c hc).trans (prefix_append _ _), hs.apart,
    hs.once, hs.order, hs.index, fun p hp => (hs.puts p hp).mono _,
    hs.gate.mono (prefix_append _ _) (List.Subset.refl _),
    fun v hv => (hs.verdicts v hv).mono (prefix_append _ _) (List.Subset.refl _)⟩

theorem sound_judge (hs : Sound cfg s) (h : s.exec cfg (.judge position view reads) = some s') :
    Sound cfg s' := by
  dsimp only [State.exec] at h
  split at h
  · cases h
  next entry hentry =>
  split at h
  case isFalse => cases h
  next hanswers =>
  cases h
  have hall : ∀ r, entry.round = some r →
      s.answers r.1 reads.first = true ∧ s.answers r.1 reads.second = true := by
    intro r hr
    rw [hr] at hanswers
    exact Bool.and_eq_true_iff.1 hanswers
  obtain ⟨hgate, hverdict⟩ := verdict_ok hs.gate hentry
    (fun r l hr hl => known_of_answers (hl ▸ (hall r hr).1))
    (fun r l hr hl => known_of_answers (hl ▸ (hall r hr).2))
  exact ⟨hs.views, hs.apart, hs.once, hs.order, hs.index, hs.puts, hgate,
    forall_mem_cons.2 ⟨hverdict, hs.verdicts⟩⟩

theorem sound_of_reachable {allowed : State → Op → Bool}
    (h : (lease cfg allowed).Reachable s) : Sound cfg s := by
  refine System.guarded_invariant ?_ ?_ h
  · exact ⟨nofun, .nil, nofun, .nil, nofun, nofun, ⟨rfl, Nat.zero_le _, nofun⟩, nofun⟩
  · intro s s' op hs _ hexec
    cases op with
    | read sampler inc view earlier ok => exact sound_read hs hexec
    | put c clock => exact sound_put hs hexec
    | write entry => exact sound_write hs hexec
    | judge position view reads => exact sound_judge hs hexec

end Step

end Yeto.Incarnation
