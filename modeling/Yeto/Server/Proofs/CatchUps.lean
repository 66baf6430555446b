/-
No catch-up starves, and none loses a fragment. A catch-up is followed through
the queue (`Waits`). A step moves it one place forward, or sends its next
fragment and puts it at the end; what joins the queue comes behind it.
-/
import Yeto.Server.CatchUps

namespace Yeto.Server.CatchUps

open Lib List

/-- What the scheduler does with the queue. -/
inductive Op
  | enqueue (group : Group) (fragments : List Nat) (tail : CatchUpTail)
  | abandon (member : Member)
  /-- `drop_superseded`. -/
  | retain (current : Member → Bool)
  | next

def exec (q : CatchUps) : Op → List CatchUpStep × CatchUps
  | .enqueue group fragments tail => ([], q.enqueue group fragments tail)
  | .abandon member => ([], q.abandon member)
  | .retain current => ([], q.filter fun c => current c.member)
  | .next =>
    match q.nextStep with
    | none => ([], q)
    | some (step, q') => ([step], q')

/-- The steps made, and the queue they leave. -/
def run : CatchUps → List Op → List CatchUpStep × CatchUps
  | q, [] => ([], q)
  | q, op :: ops =>
    let rest := run (q.exec op).2 ops
    ((q.exec op).1 ++ rest.1, rest.2)

/-- The queue never has more than `M` places. -/
def Within (M : Nat) (q : CatchUps) (ops : List Op) : Prop :=
  ∀ n ≤ ops.length, (q.run (ops.take n)).2.length ≤ M

/-- The learner's stream does not fail, and its generation is current. -/
def Op.Spares (m : Member) : Op → Prop
  | .abandon m' => m' ≠ m
  | .retain current => current m = true
  | _ => True

def Op.isNext : Op → Bool
  | .next => true
  | _ => false

/-- The fragment a step sends to `m`. -/
def sentTo (m : Member) : CatchUpStep → Option Nat
  | .send group p => if group.member = m then some p else none
  | .done _ => none

/-- The step does not end a catch-up of `m`. -/
def Goes (m : Member) : CatchUpStep → Prop
  | .send .. => True
  | .done c => c.member ≠ m

/-- The one catch-up of `m` has at most `k` others before it. -/
def Waits (q : CatchUps) (m : Member) (left : List Nat) (k : Nat) : Prop :=
  ∃ a c b, q = a ++ c :: b ∧ a.length ≤ k ∧ c.member = m ∧ c.remaining = left
    ∧ ∀ x ∈ a ++ b, x.member ≠ m

variable {q q' : CatchUps} {m : Member} {left : List Nat} {k M : Nat} {ops : List Op}

theorem Waits.pos (h : Waits q m left k) : 0 < q.length := by
  obtain ⟨a, c, b, rfl, -⟩ := h
  simp

/-- A change of one entry keeps its member, and what `m` has left. -/
theorem Waits.update {β : Type} {p : CatchUp → Bool} {f : CatchUp → β × CatchUp} {r : β}
    (h : Waits q m left k) (hmember : ∀ x, (f x).2.member = x.member)
    (hleft : ∀ x, p x = true → x.member = m → (f x).2.remaining = x.remaining)
    (hq : updateFirst p f q = some (r, q')) : Waits q' m left k := by
  obtain ⟨a, c, b, rfl, hk, hm, hc, hother⟩ := h
  obtain ⟨l₁, x, l₂, hsplit, -, hx, -, rfl⟩ := updateFirst_eq_some hq
  have hswap : ∀ l l', (∀ z ∈ l ++ x :: l', z.member ≠ m)
      → ∀ z ∈ l ++ (f x).2 :: l', z.member ≠ m := by
    intro l l' h z hz
    rcases mem_append.1 hz with hz | hz
    · exact h z (mem_append_left _ hz)
    · rcases mem_cons.1 hz with rfl | hz
      · exact hmember x ▸ h x mem_append_cons_self
      · exact h z (mem_append_right _ (mem_cons_of_mem _ hz))
  have hself : x = c → l₁ = a → l₂ = b → Waits (l₁ ++ (f x).2 :: l₂) m left k := by
    rintro rfl rfl rfl
    exact ⟨_, _, _, rfl, hk, (hmember x).trans hm, (hleft x hx hm).trans hc, hother⟩
  -- the entry is behind the catch-up of `m`, that catch-up itself, or before it
  rcases append_eq_append_iff.1 hsplit with ⟨t, rfl, ht⟩ | ⟨t, rfl, ht⟩
  · cases t with
    | nil => exact hself (cons.inj ht).1.symm (append_nil a) (cons.inj ht).2.symm
    | cons y t =>
      rw [cons_append] at ht
      obtain ⟨rfl, rfl⟩ := cons.inj ht
      rw [← append_assoc] at hother
      refine ⟨a, c, t ++ (f x).2 :: l₂, by simp, hk, hm, hc, ?_⟩
      rw [← append_assoc]
      exact hswap _ _ hother
  · cases t with
    | nil => exact hself (cons.inj ht).1 (append_nil l₁).symm (cons.inj ht).2
    | cons y t =>
      rw [cons_append] at ht
      obtain ⟨rfl, rfl⟩ := cons.inj ht
      rw [append_assoc, cons_append] at hother
      refine ⟨l₁ ++ (f x).2 :: t, c, b, by simp, by simpa using hk, hm, hc, ?_⟩
      rw [append_assoc, cons_append]
      exact hswap _ _ hother

theorem Waits.enqueue (h : Waits q m left k) (group : Group) (fragments : List Nat)
    (tail : CatchUpTail) : Waits (q.enqueue group fragments tail) m left k := by
  unfold CatchUps.enqueue
  cases hq : updateFirst (fun c : CatchUp => decide (c.member = group.member))
    (fun c => ((), { c with tail := c.tail.or tail })) q with
  | some r => exact h.update (fun _ => rfl) (fun _ _ _ => rfl) hq
  | none =>
    obtain ⟨a, c, b, rfl, hk, hm, hc, hother⟩ := h
    have hnew : c.member ≠ group.member :=
      of_decide_eq_false (updateFirst_eq_none hq c mem_append_cons_self)
    refine ⟨a, c, b ++ [⟨group, fragments, tail⟩], by simp, hk, hm, hc, ?_⟩
    rw [← append_assoc]
    exact forall_mem_append.2 ⟨hother, forall_mem_singleton.2 fun h => hnew (hm.trans h.symm)⟩

theorem Waits.abandon (h : Waits q m left k) {m' : Member} (hne : m' ≠ m) :
    Waits (q.abandon m') m left k := by
  unfold CatchUps.abandon
  cases hq : updateFirst (fun c : CatchUp => decide (c.member = m'))
    (fun c => ((), { c with remaining := [] })) q with
  | some r =>
    exact h.update (fun _ => rfl)
      (fun x hx hm => absurd ((of_decide_eq_true hx).symm.trans hm) hne) hq
  | none => exact h

theorem Waits.retain (h : Waits q m left k) {current : Member → Bool} (hm : current m = true) :
    Waits (q.filter fun c => current c.member) m left k := by
  obtain ⟨a, c, b, rfl, hk, rfl, hc, hother⟩ := h
  refine ⟨_, c, _, by rw [filter_append, filter_cons_of_pos (by exact hm)],
    (length_filter_le _ a).trans hk, rfl, hc, fun x hx => hother x ?_⟩
  rw [← filter_append] at hx
  exact (mem_filter.1 hx).1

/-- One operation: the catch-up of `m` waits on, and is nearer if the queue
moved; or it sends a fragment and goes to the end; or it is done. -/
theorem Waits.exec {op : Op} (h : Waits q m left k) (hspares : op.Spares m) (hM : q.length ≤ M) :
    (∃ k', Waits (q.exec op).2 m left k' ∧ k' + (if op.isNext then 1 else 0) ≤ k
        ∧ (q.exec op).1.filterMap (sentTo m) = [] ∧ ∀ e ∈ (q.exec op).1, Goes m e)
      ∨ (∃ p rest, left = p :: rest ∧ Waits (q.exec op).2 m rest (M - 1)
        ∧ (q.exec op).1.filterMap (sentTo m) = [p] ∧ ∀ e ∈ (q.exec op).1, Goes m e)
      ∨ left = [] ∧ ∃ c, (q.exec op).1 = [.done c] ∧ c.member = m := by
  cases op with
  | enqueue group fragments tail => exact .inl ⟨k, h.enqueue .., le_rfl, rfl, nofun⟩
  | abandon m' => exact .inl ⟨k, h.abandon hspares, le_rfl, rfl, nofun⟩
  | retain current => exact .inl ⟨k, h.retain hspares, le_rfl, rfl, nofun⟩
  | next =>
    obtain ⟨a, c, b, rfl, hk, hm, hc, hother⟩ := h
    cases a with
    | nil =>
      -- it is its turn
      cases left with
      | nil => exact .inr (.inr ⟨rfl, c, by simp [CatchUps.exec, nextStep, hc], hm⟩)
      | cons p rest =>
        refine .inr (.inl ⟨p, rest, rfl, ⟨b, { c with remaining := rest }, [], ?_, ?_, hm, rfl, ?_⟩,
          ?_, ?_⟩)
        · simp [CatchUps.exec, nextStep, hc]
        · simp only [nil_append, length_cons] at hM
          omega
        · simpa using hother
        · have : c.group.member = m := hm
          simp [CatchUps.exec, nextStep, hc, sentTo, this]
        · simp [CatchUps.exec, nextStep, hc, Goes]
    | cons x a =>
      have hx : x.member ≠ m := hother x mem_cons_self
      have hgroup : x.group.member ≠ m := hx
      have hrest : ∀ z ∈ a ++ b, z.member ≠ m := fun z hz => hother z (mem_cons_of_mem _ hz)
      cases hleft : x.remaining with
      | nil =>
        refine .inl ⟨a.length, ⟨a, c, b, ?_, le_rfl, hm, hc, hrest⟩, hk, ?_, ?_⟩
          <;> simp [CatchUps.exec, nextStep, hleft, sentTo, Goes, hx]
      | cons p rest =>
        refine .inl ⟨a.length, ⟨a, c, b ++ [{ x with remaining := rest }], ?_, le_rfl, hm, hc, ?_⟩,
          hk, ?_, ?_⟩
        · simp [CatchUps.exec, nextStep, hleft]
        · rw [← append_assoc]
          exact forall_mem_append.2 ⟨hrest, forall_mem_singleton.2 hx⟩
        · simp [CatchUps.exec, nextStep, hleft, sentTo, hgroup]
        · simp [CatchUps.exec, nextStep, hleft, Goes]

/-- The steps of a run end the catch-up of `m`, and before that send it
`left`. -/
def Completes (m : Member) (left : List Nat) (steps : List CatchUpStep) : Prop :=
  ∃ pre c post, steps = pre ++ .done c :: post ∧ c.member = m
    ∧ pre.filterMap (sentTo m) = left ∧ ∀ e ∈ pre, Goes m e

theorem Completes.append {now steps : List CatchUpStep} {sent : List Nat}
    (h : Completes m left steps) (hsent : now.filterMap (sentTo m) = sent)
    (hgoes : ∀ e ∈ now, Goes m e) : Completes m (sent ++ left) (now ++ steps) := by
  obtain ⟨pre, c, post, rfl, hm, rfl, hpre⟩ := h
  refine ⟨now ++ pre, c, post, (append_assoc ..).symm, hm, ?_, forall_mem_append.2 ⟨hgoes, hpre⟩⟩
  rw [filterMap_append, hsent]

theorem Waits.completes (h : Waits q m left k) (hspares : ∀ op ∈ ops, op.Spares m)
    (hM : Within M q ops) (hsteps : left.length * M + k < ops.countP Op.isNext) :
    Completes m left (q.run ops).1 := by
  -- `left.length * M + k` goes down with every step of the queue
  induction ops generalizing q left k with
  | nil => cases hsteps
  | cons op ops ih =>
    obtain ⟨hop, hspares⟩ := forall_mem_cons.1 hspares
    have hlen : q.length ≤ M := hM 0 (Nat.zero_le _)
    have hM : Within M (q.exec op).2 ops := fun n hn => hM (n + 1) (Nat.succ_le_succ hn)
    rw [countP_cons] at hsteps
    show Completes m left ((q.exec op).1 ++ (run (q.exec op).2 ops).1)
    rcases h.exec hop hlen with ⟨k', hw, hk, hsent, hgoes⟩ | ⟨p, rest, rfl, hw, hsent, hgoes⟩
      | ⟨rfl, c, hdone, hm⟩
    · refine (ih hw hspares hM ?_).append hsent hgoes
      omega
    · refine (ih hw hspares hM ?_).append hsent hgoes
      have hpos := h.pos.trans_le hlen
      have hone : (if op.isNext = true then 1 else 0) ≤ 1 := by split <;> decide
      rw [length_cons, Nat.succ_mul] at hsteps
      omega
    · rw [hdone]
      exact ⟨[], c, _, rfl, hm, rfl, nofun⟩

/-- NO CATCH-UP STARVES. In a queue of at most `M` places, a catch-up that
is not given up is done after `M` steps for each of its fragments and `M`
more, and it was sent each of them once, in order. -/
theorem catch_up_completes {group : Group} {fragments : List Nat} {tail : CatchUpTail}
    (hnew : q.holds group.member = false) (hspares : ∀ op ∈ ops, op.Spares group.member)
    (hM : Within M (q.enqueue group fragments tail) ops)
    (hsteps : (fragments.length + 1) * M ≤ ops.countP Op.isNext) :
    Completes group.member fragments ((q.enqueue group fragments tail).run ops).1 := by
  have hother : ∀ x ∈ q, x.member ≠ group.member := by simpa [holds] using hnew
  have hq : q.enqueue group fragments tail = q ++ [⟨group, fragments, tail⟩] := by
    unfold CatchUps.enqueue
    cases h : updateFirst (fun c : CatchUp => decide (c.member = group.member))
      (fun c => ((), { c with tail := c.tail.or tail })) q with
    | none => rfl
    | some r =>
      obtain ⟨_, _⟩ := r
      obtain ⟨l₁, x, l₂, rfl, -, hx, -⟩ := updateFirst_eq_some h
      exact absurd (of_decide_eq_true hx) (hother x mem_append_cons_self)
  have hlen : q.length + 1 ≤ M := by
    have := hM 0 (Nat.zero_le _)
    rw [hq] at this
    simpa [run] using this
  have hwaits : Waits (q.enqueue group fragments tail) group.member fragments q.length :=
    ⟨q, ⟨group, fragments, tail⟩, [], hq, le_rfl, rfl, rfl, by simpa using hother⟩
  refine hwaits.completes hspares hM ?_
  rw [Nat.succ_mul] at hsteps
  omega

/-- Learner 1 is caught up between learner 0, who has one fragment left,
and learner 2, who joins when the queue has moved twice. -/
theorem catch_up_completes_sample : Completes ⟨1, 0⟩ [5, 6]
    ((enqueue [⟨⟨⟨0, 0⟩, 0⟩, [4], .REJOIN⟩] ⟨⟨1, 0⟩, 1⟩ [5, 6] .REJOIN).run
      (replicate 2 .next ++ .enqueue ⟨⟨2, 0⟩, 2⟩ [4, 5] .REBIND :: replicate 7 .next)).1 :=
  catch_up_completes (M := 3) (by decide) (by simp [Op.Spares]) (by unfold Within; decide +kernel)
    (by decide)

end Yeto.Server.CatchUps
