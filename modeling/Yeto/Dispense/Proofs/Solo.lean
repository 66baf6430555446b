/-
A holder that accepts one stream, with nothing queued in it: each claim takes
the next positions of the stream. `solo_claims` reaches states no evaluation
gets to, because they take as many claims as a machine word counts.
-/
import Yeto.Dispense.Proofs.Requests

namespace Yeto.Dispense

open Lib Dispenser List SortedMap

theorem pickFresh_solo {d : Dispenser} {s need : Nat} (hs : s < d.streams.length) (hneed : 0 < need)
    (hroom : (d.stream s).next + need ≤ d.limit s) : d.pickFresh [s] need = [(s, need)] := by
  have hp : Picked d [s] need (d.pickFresh [s] need) :=
    picked_pickFresh need fun t ht => (mem_singleton.1 ht) ▸ hs
  rw [hp.eq_of_single (fun t => mem_singleton.1) (mem_singleton_self s),
    min_eq_left (by omega), if_neg hneed.ne']

/-- The next `wanted` positions of a stream. -/
def soloSpan (d : Dispenser) (s wanted : Nat) : Span :=
  ⟨positionOf s (d.stream s).next, positionOf s ((d.stream s).next + wanted), 0⟩

theorem collect_solo {d : Dispenser} {s wanted : Nat}
    (hs : s < d.streams.length) (hq : (d.stream s).queue = []) (hwanted : 0 < wanted)
    (hroom : (d.stream s).next + wanted ≤ d.limit s) :
    (d.collect [s] wanted).1 = [soloSpan d s wanted]
      ∧ ((d.collect [s] wanted).2.stream s).next = (d.stream s).next + wanted
      ∧ ((d.collect [s] wanted).2.stream s).queue = [] := by
  have hdrain := drainStreams_idle [s] d.streams (Nat.ne_of_gt hwanted)
    fun t ht => (mem_singleton.1 ht) ▸ hq
  have hafter : afterDrain d [s] wanted = d := by
    unfold afterDrain
    rw [hdrain]
  have hpicks : picksOf d [s] wanted = [(s, wanted)] := by
    unfold picksOf
    rw [hdrain, hafter]
    exact pickFresh_solo hs hwanted hroom
  have hone := stream_giveOne wanted hs s
  rw [if_pos rfl] at hone
  rw [collect_eq, hdrain, hpicks, hafter]
  exact ⟨rfl, hone.1, hone.2.trans hq⟩

/-- A live holder that accepts stream `s` only, with nothing queued there
and requests numbered up to `seq` behind it. -/
structure Solo (h : Holder) (s seq : Nat) (d : Dispenser) : Prop where
  books : Books d
  leased : Leased d h
  live : ∃ l, d.live.find h = some l ∧ l.accept = [s] ∧ ∀ n a, l.last = some (n, a) → n ≤ seq
  queue : (d.stream s).queue = []

structure Took (h : Holder) (s n wanted : Nat) (d d' : Dispenser) : Prop where
  cfg : d'.cfg = d.cfg
  data : d'.data = d.data
  length : d'.streams.length = d.streams.length
  next : (d'.stream s).next = (d.stream s).next + n * wanted
  nextBlock : d'.nextBlock = d.nextBlock + n
  /-- Every claim adds a block of one span. -/
  spans : (d'.blocks.sum fun _ b => b.spans.length) = (d.blocks.sum fun _ b => b.spans.length) + n

theorem Took.trans {h : Holder} {s m n wanted : Nat} {a b c : Dispenser}
    (h1 : Took h s m wanted a b) (h2 : Took h s n wanted b c) : Took h s (m + n) wanted a c := by
  refine ⟨h2.cfg.trans h1.cfg, h2.data.trans h1.data, h2.length.trans h1.length, ?_, ?_, ?_⟩
  · rw [h2.next, h1.next, Nat.add_mul, Nat.add_assoc]
  · rw [h2.nextBlock, h1.nextBlock, Nat.add_assoc]
  · rw [h2.spans, h1.spans, Nat.add_assoc]

section Claims

variable {h : Holder} {s seq wanted : Nat} {d : Dispenser}

def soloGrant (d : Dispenser) (s wanted : Nat) : Claim :=
  .grant d.nextBlock [((soloSpan d s wanted).start, (soloSpan d s wanted).stop)]

theorem Solo.newClaim (hd : Solo h s seq d) (hw : 0 < wanted ∧ wanted ≤ d.cfg.maxBlock.val)
    (hroom : (d.stream s).next + wanted ≤ d.limit s) (now : Nat) : d.claim h (seq + 1) wanted now
      = (.ok (soloGrant d s wanted),
        (((touched d h now).collect [s] wanted).2.grant h [soloSpan d s wanted]).2.remember h
          (seq + 1) (.claim (soloGrant d s wanted))) := by
  obtain ⟨l, hl, hacc, hlast⟩ := hd.live
  have hs : s < d.streams.length := (hd.books.accept h l hl).2.2 s (hacc ▸ mem_singleton_self s)
  have hcase := claim_case d h (seq + 1) wanted now
  generalize d.claim h (seq + 1) wanted now = r at hcase ⊢
  cases hcase with
  | fenced m hno => exact absurd hd.leased hno
  | stale l₁ m _ hl₁ hstale =>
    obtain rfl := Option.some.inj (hl.symm.trans hl₁)
    exact absurd (fun n a ha => Nat.lt_succ_of_le (hlast n a ha)) hstale
  | replayed l₁ c _ hl₁ hlast₁ =>
    obtain rfl := Option.some.inj (hl.symm.trans hl₁)
    have := hlast (seq + 1) _ hlast₁
    omega
  | refused l₁ e _ _ _ hfail =>
    have hsize : wanted = 0 ∨ wanted > d.cfg.maxBlock.val := (claimNew_error hfail).1
    omega
  | new l₁ c d' _ _ _ hcl =>
    have hw' : 0 < wanted ∧ wanted ≤ (touched d h now).cfg.maxBlock.val := hw
    obtain ⟨a, ha, hdef⟩ := claimNew_allowed h hw'
    have haccept : (touched d h now).acceptOf h = [s] := (acceptOf_eq hl).trans hacc
    have hspans : ((touched d h now).collect [s] wanted).1 = [soloSpan d s wanted] :=
      (collect_solo (d := touched d h now) hs hd.queue hw.1 hroom).1
    have hid : ((touched d h now).collect [s] wanted).2.nextBlock
        = d.nextBlock := (gave_collect (touched d h now) [s] wanted).nextBlock
    rw [haccept, hspans, isEmpty_cons, if_neg Bool.false_ne_true] at hdef
    rw [ha] at hcl
    obtain ⟨h1, h2⟩ := Prod.mk.inj hcl
    rw [← Except.ok.inj h1, ← h2, hdef]
    unfold grant
    rw [hid]
    rfl

theorem solo_claim (hd : Solo h s seq d) (hw : 0 < wanted ∧ wanted ≤ d.cfg.maxBlock.val)
    (hroom : (d.stream s).next + wanted ≤ d.limit s) (now : Nat) :
    Solo h s (seq + 1) (d.claim h (seq + 1) wanted now).2
      ∧ Took h s 1 wanted d (d.claim h (seq + 1) wanted now).2 := by
  obtain ⟨l, hl, hacc, -⟩ := hd.live
  have hs : s < d.streams.length := (hd.books.accept h l hl).2.2 s (hacc ▸ mem_singleton_self s)
  obtain ⟨-, hnext, hqueue⟩ := collect_solo (d := touched d h now) hs hd.queue hw.1 hroom
  have hg := gave_collect (touched d h now) [s] wanted
  have hbooks := hd.books.claim h (seq + 1) wanted now
  rw [hd.newClaim hw hroom now] at hbooks ⊢
  have hlive : ((touched d h now).collect [s] wanted).2.live.find h = some l := by
    rw [hg.live]
    exact hl
  generalize ((touched d h now).collect [s] wanted).2 = c at *
  have hgrant : (c.grant h [soloSpan d s wanted]).2.live.find h = some { l with
      waiting := false, blocks := l.blocks.insert c.nextBlock () } := by
    dsimp only [grant]
    rw [find_update, if_pos rfl, hlive]
    rfl
  have hfind := find_remember hgrant (seq + 1) (.claim (soloGrant d s wanted))
  have hfree : c.blocks.find c.nextBlock = none := by
    rw [hg.blocks, hg.nextBlock]
    exact hd.books.find_nextBlock
  refine ⟨⟨hbooks, ⟨?_, ?_⟩, ⟨_, hfind, hacc, ?_⟩, hqueue⟩,
    ⟨hg.cfg, hg.data, hg.length, ?_, ?_, ?_⟩⟩
  · exact (contains_iff _ _).2 ⟨_, hfind⟩
  · show c.members.isLive h = true
    rw [hg.members]
    exact (Members.isLive_touch d.members h now h).trans hd.leased.2
  · intro n a hlast
    rw [← (Prod.mk.inj (Option.some.inj hlast)).1]
  · rw [Nat.one_mul]
    exact hnext
  · exact congrArg (· + 1) hg.nextBlock
  · show ((c.blocks.insert c.nextBlock _).sum fun _ b => b.spans.length) = _
    rw [sum_insert_new _ _ _ hfree, hg.blocks, Nat.add_comm]
    rfl

def claims (h : Holder) (seq wanted now n : Nat) : List Op :=
  (List.range n).map fun i => .claim h (seq + i + 1) wanted now

theorem solo_claims (hd : Solo h s seq d) (wanted now n : Nat) :
    0 < wanted ∧ wanted ≤ d.cfg.maxBlock.val → (d.stream s).next + n * wanted ≤ d.limit s →
    Solo h s (seq + n) ((claims h seq wanted now n).foldl apply d) ∧ Took h s n wanted d
        ((claims h seq wanted now n).foldl apply d) := by
  induction n with
  | zero =>
    intro _ _
    refine ⟨hd, rfl, rfl, rfl, ?_, rfl, rfl⟩
    rw [Nat.zero_mul]
    rfl
  | succ n ih =>
    intro hw hroom
    rw [Nat.succ_mul] at hroom
    obtain ⟨h1, h2⟩ := ih hw (by omega)
    have hstep : (claims h seq wanted now (n + 1)).foldl apply d
        = (((claims h seq wanted now n).foldl apply d).claim h (seq + n + 1) wanted now).2 := by
      unfold claims
      rw [range_succ, map_append, foldl_append]
      rfl
    rw [hstep]
    have hlimit := limit_congr h2.cfg h2.data s
    obtain ⟨h3, h4⟩ := solo_claim h1 (by rw [h2.cfg]; exact hw) (by rw [h2.next, hlimit]; omega) now
    exact ⟨h3, h2.trans h4⟩

end Claims

end Yeto.Dispense
