/-
A log that several participants append to. An append is a call: it begins, its
value is added at the end of the log once, and it returns; it may also be
dropped, with its value added or not. Some values end the log. `once`, `order`,
`last` and `grows` hold of every run, and of all that simulates one
(`System.reachable_of_simulates`).
-/
import Yeto.Lib.System

namespace Lib.Appends

open List

/-- The beginning of a call, with the length of the log at that time, and
the return of a call, with its value. -/
inductive Event (β : Type*)
  | begun (id size : Nat)
  | returned (id : Nat) (value : β)
deriving DecidableEq

structure Live (β : Type*) where
  id : Nat
  value : β
  added : Bool

/-- The log with the call of each value; the events, the newest first; and
the calls in progress. -/
structure State (ι β : Type*) where
  index : List (β × Nat)
  events : List (Event β)
  calls : Nat
  live : ι → Option (Live β)

inductive Op (ι β : Type*)
  | start (i : ι) (value : β)
  | add (i : ι)
  | giveBack (i : ι)
  | drop (i : ι)

variable {ι β : Type*} [DecidableEq ι] {ends : β → Bool}

def State.new : State ι β := ⟨[], [], 0, fun _ => none⟩

def State.exec (ends : β → Bool) (s : State ι β) : Op ι β → Option (State ι β)
  | .start i value =>
    match s.live i with
    | some _ => none
    | none => some { s with
        events := .begun s.calls s.index.length :: s.events
        calls := s.calls + 1
        live := Function.update s.live i (some ⟨s.calls, value, false⟩) }
  | .add i =>
    match s.live i with
    | some ⟨id, value, false⟩ =>
      if s.index.any fun x => ends x.1 then none
      else some { s with
        index := s.index ++ [(value, id)]
        live := Function.update s.live i (some ⟨id, value, true⟩) }
    | _ => none
  | .giveBack i =>
    match s.live i with
    | some ⟨id, value, true⟩ => some { s with
        events := .returned id value :: s.events
        live := Function.update s.live i none }
    | _ => none
  | .drop i => some { s with live := Function.update s.live i none }

variable {s : State ι β}

theorem exec_start {i : ι} (value : β) (h : s.live i = none) :
    s.exec ends (.start i value) = some { s with
      events := .begun s.calls s.index.length :: s.events
      calls := s.calls + 1
      live := Function.update s.live i (some ⟨s.calls, value, false⟩) } := by
  dsimp only [State.exec]
  rw [h]

variable {value : β}

theorem exec_add {i : ι} {id : Nat} (h : s.live i = some ⟨id, value, false⟩)
    (hopen : (s.index.any fun x => ends x.1) = false) : s.exec ends (.add i) = some { s with
      index := s.index ++ [(value, id)]
      live := Function.update s.live i (some ⟨id, value, true⟩) } := by
  dsimp only [State.exec]
  rw [h, hopen]
  rfl

theorem exec_giveBack {i : ι} {id : Nat} (h : s.live i = some ⟨id, value, true⟩) :
    s.exec ends (.giveBack i) = some { s with
      events := .returned id value :: s.events
      live := Function.update s.live i none } := by
  dsimp only [State.exec]
  rw [h]

def system (ι : Type*) {β : Type*} [DecidableEq ι] (ends : β → Bool) : System (State ι β) :=
  System.guarded State.new (fun _ _ => true) (State.exec ends)

def State.added (s : State ι β) (id : Nat) : List (β × Nat) := s.index.filter (·.2 = id)

structure Good (ends : β → Bool) (s : State ι β) : Prop where
  ids : ∀ x ∈ s.index, x.2 < s.calls
  liveIds : ∀ i c, s.live i = some c → c.id < s.calls
  apart : ∀ i j c d, s.live i = some c → s.live j = some d → c.id = d.id → i = j
  gone : ∀ i c id value, s.live i = some c → .returned id value ∈ s.events → c.id ≠ id
  pending : ∀ i c, s.live i = some c → c.added = false → s.added c.id = []
  done : ∀ i c, s.live i = some c → c.added = true → s.added c.id = [(c.value, c.id)]
  returned : ∀ id value, .returned id value ∈ s.events → id < s.calls ∧ s.added id = [(value, id)]
  begun : ∀ id size, .begun id size ∈ s.events → size ≤ s.index.length ∧ id < s.calls
      ∧ ∀ k x, s.index[k]? = some x → x.2 = id → size ≤ k
  before : s.events.Pairwise fun later earlier => ∀ a value b size,
    earlier = .returned a value → later = .begun b size →
      ∀ k x, s.index[k]? = some x → x.2 = a → k < size
  last : ∀ k x, s.index[k]? = some x → ends x.1 = true → k + 1 = s.index.length

omit [DecidableEq ι] in
theorem added_nil_iff {id : Nat} : s.added id = [] ↔ ∀ x ∈ s.index, x.2 ≠ id := by
  unfold State.added
  rw [filter_eq_nil_iff]
  simp

section Steps

variable {s' : State ι β} {i : ι}

theorem live_cases {j : ι} {v : Option (Live β)} {c : Live β}
    (h : Function.update s.live i v j = some c) :
    (j = i ∧ v = some c) ∨ (j ≠ i ∧ s.live j = some c) := by
  by_cases hj : j = i
  · rw [hj, Function.update_self] at h
    exact .inl ⟨hj, h⟩
  · rw [Function.update_of_ne hj] at h
    exact .inr ⟨hj, h⟩

theorem good_start (hs : Good ends s)
    (h : s.exec ends (.start i value) = some s') : Good ends s' := by
  dsimp only [State.exec] at h
  split at h
  · cases h
  next hlive =>
  cases h
  have hfresh : s.added s.calls = [] :=
    added_nil_iff.2 fun x hx heq => absurd (hs.ids x hx) (by omega)
  refine ⟨fun x hx => Nat.lt_succ_of_lt (hs.ids x hx), ?_, ?_, ?_, ?_, ?_, ?_, ?_, ?_, hs.last⟩
  · intro j c hc
    rcases live_cases hc with ⟨-, ⟨⟩⟩ | ⟨-, hc⟩
    · exact Nat.lt_succ_self _
    · exact Nat.lt_succ_of_lt (hs.liveIds j c hc)
  · intro j j' c d hc hd heq
    rcases live_cases hc with ⟨rfl, ⟨⟩⟩ | ⟨-, hc'⟩
    · rcases live_cases hd with ⟨rfl, -⟩ | ⟨-, hd'⟩
      · rfl
      · exact absurd heq.symm (Nat.ne_of_lt (hs.liveIds j' d hd'))
    · rcases live_cases hd with ⟨-, ⟨⟩⟩ | ⟨-, hd'⟩
      · exact absurd heq (Nat.ne_of_lt (hs.liveIds j c hc'))
      · exact hs.apart j j' c d hc' hd' heq
  · intro j c id v hc hret
    have hret : .returned id v ∈ s.events := by simpa using hret
    rcases live_cases hc with ⟨-, ⟨⟩⟩ | ⟨-, hc⟩
    · have := (hs.returned id v hret).1
      simp only
      omega
    · exact hs.gone j c id v hc hret
  · intro j c hc hadded
    rcases live_cases hc with ⟨-, ⟨⟩⟩ | ⟨-, hc⟩
    · exact hfresh
    · exact hs.pending j c hc hadded
  · intro j c hc hadded
    rcases live_cases hc with ⟨-, ⟨⟩⟩ | ⟨-, hc⟩
    · cases hadded
    · exact hs.done j c hc hadded
  · intro id v hret
    obtain ⟨hlt, hadded⟩ := hs.returned id v (by simpa using hret)
    exact ⟨Nat.lt_succ_of_lt hlt, hadded⟩
  · intro id size hbegun
    rcases mem_cons.1 hbegun with heq | hbegun
    · cases heq
      refine ⟨Nat.le_refl _, Nat.lt_succ_self _, fun k x hx hid => ?_⟩
      exact absurd hid (added_nil_iff.1 hfresh x (mem_of_getElem? hx))
    · obtain ⟨hsize, hid, hk⟩ := hs.begun id size hbegun
      exact ⟨hsize, Nat.lt_succ_of_lt hid, hk⟩
  · refine pairwise_cons.2 ⟨fun e _ a v b size _ hlater => ?_, hs.before⟩
    cases hlater
    intro k x hx _
    exact (List.getElem?_eq_some_iff.1 hx).1

omit [DecidableEq ι] in
theorem added_append (s : State ι β) (x : β × Nat) (id : Nat) :
    { s with index := s.index ++ [x] }.added id = s.added id ++ if x.2 = id then [x] else [] := by
  unfold State.added
  rw [filter_append]
  congr 1
  split <;> next h => simp [h]

theorem good_add (hs : Good ends s) (h : s.exec ends (.add i) = some s') : Good ends s' := by
  dsimp only [State.exec] at h
  split at h
  case h_2 => cases h
  next id value hlive =>
  split at h
  · cases h
  next hends =>
  cases h
  have hcases : ∀ j c, Function.update s.live i (some ⟨id, value, true⟩) j = some c →
      (j = i ∧ c = ⟨id, value, true⟩) ∨ (s.live j = some c ∧ c.id ≠ id) := by
    intro j c hc
    rcases live_cases hc with ⟨hj, ⟨⟩⟩ | ⟨hj, hc⟩
    · exact .inl ⟨hj, rfl⟩
    · exact .inr ⟨hc, fun heq => hj (hs.apart j i c _ hc hlive heq)⟩
  have hadded : ∀ n, State.added (ι := ι) ⟨s.index ++ [(value, id)], s.events, s.calls,
        Function.update s.live i (some ⟨id, value, true⟩)⟩ n
      = s.added n ++ if id = n then [(value, id)] else [] := fun n => added_append s (value, id) n
  -- The new value is the last one.
  have hid := hs.liveIds i _ hlive
  refine ⟨?_, ?_, ?_, ?_, ?_, ?_, ?_, ?_, ?_, ?_⟩
  · exact forall_mem_append.2 ⟨hs.ids, forall_mem_singleton.2 hid⟩
  · intro j c hc
    rcases hcases j c hc with ⟨-, rfl⟩ | ⟨hc, -⟩
    · exact hid
    · exact hs.liveIds j c hc
  · intro j j' c d hc hd heq
    rcases hcases j c hc with ⟨rfl, rfl⟩ | ⟨hc, hne⟩
    · rcases hcases j' d hd with ⟨rfl, -⟩ | ⟨-, hne⟩
      · rfl
      · exact absurd heq.symm hne
    · rcases hcases j' d hd with ⟨-, rfl⟩ | ⟨hd, -⟩
      · exact absurd heq hne
      · exact hs.apart j j' c d hc hd heq
  · intro j c n v hc hret
    rcases hcases j c hc with ⟨-, rfl⟩ | ⟨hc, -⟩
    · exact hs.gone i ⟨id, value, false⟩ n v hlive hret
    · exact hs.gone j c n v hc hret
  · intro j c hc hnot
    rcases hcases j c hc with ⟨-, rfl⟩ | ⟨hc, hne⟩
    · cases hnot
    · rw [hadded, hs.pending j c hc hnot, if_neg hne.symm]
      rfl
  · intro j c hc hyes
    rcases hcases j c hc with ⟨-, rfl⟩ | ⟨hc, hne⟩
    · rw [hadded, hs.pending i _ hlive rfl, if_pos rfl]
      rfl
    · rw [hadded, hs.done j c hc hyes, if_neg hne.symm, append_nil]
  · intro n v hret
    obtain ⟨hlt, hn⟩ := hs.returned n v hret
    refine ⟨hlt, ?_⟩
    rw [hadded, hn, if_neg (hs.gone i _ n v hlive hret), append_nil]
  · intro n size hbegun
    obtain ⟨hsize, hn, hk⟩ := hs.begun n size hbegun
    refine ⟨?_, hn, fun k x hx hxn => ?_⟩
    · rw [length_append]
      omega
    · rcases getElem?_snoc hx with hx | ⟨rfl, -⟩
      · exact hk k x hx hxn
      · exact hsize
  · refine hs.before.imp_of_mem fun {later earlier} hlater hearlier hbefore => ?_
    intro a v b size ha hb k x hx hxa
    rcases getElem?_snoc hx with hx | ⟨-, rfl⟩
    · exact hbefore a v b size ha hb k x hx hxa
    · subst ha
      exact absurd hxa (hs.gone i _ a v hlive hearlier)
  · intro k x hx hend
    rcases getElem?_snoc hx with hx | ⟨rfl, rfl⟩
    · refine absurd (any_eq_true.2 ⟨x, ?_, hend⟩) hends
      exact mem_of_getElem? hx
    · rw [length_append]
      rfl

theorem good_drop (hs : Good ends s) (h : s.exec ends (.drop i) = some s') : Good ends s' := by
  cases h
  have hcases : ∀ j c, Function.update s.live i none j = some c → s.live j = some c := by
    intro j c hc
    rcases live_cases hc with ⟨-, ⟨⟩⟩ | ⟨-, hc⟩
    exact hc
  exact ⟨hs.ids, fun j c hc => hs.liveIds j c (hcases j c hc),
    fun j j' c d hc hd => hs.apart j j' c d (hcases j c hc) (hcases j' d hd),
    fun j c n v hc => hs.gone j c n v (hcases j c hc), fun j c hc => hs.pending j c (hcases j c hc),
    fun j c hc => hs.done j c (hcases j c hc), hs.returned, hs.begun, hs.before, hs.last⟩

theorem good_giveBack (hs : Good ends s)
    (h : s.exec ends (.giveBack i) = some s') : Good ends s' := by
  dsimp only [State.exec] at h
  split at h
  case h_2 => cases h
  next id value hlive =>
  cases h
  have hdrop := good_drop (i := i) hs rfl
  refine { hdrop with
    gone := fun j c n v hc hret => ?_
    returned := fun n v hret => ?_
    begun := fun n size hbegun => hs.begun n size (by simpa using hbegun)
    before := pairwise_cons.2 ⟨?_, hs.before⟩ }
  · rcases mem_cons.1 hret with heq | hret
    · cases heq
      rcases live_cases hc with ⟨-, ⟨⟩⟩ | ⟨hj, hc⟩
      exact fun heq => hj (hs.apart j i c _ hc hlive heq)
    · exact hdrop.gone j c n v hc hret
  · rcases mem_cons.1 hret with heq | hret
    · cases heq
      exact ⟨hs.liveIds i _ hlive, hs.done i _ hlive rfl⟩
    · exact hs.returned n v hret
  · rintro e - a v b size - ⟨⟩

end Steps

theorem grows {s s' : State ι β} (h : (system ι ends).Steps s s') : s.index <+: s'.index := by
  induction h with
  | refl => exact prefix_rfl
  | tail _ hlast ih =>
    refine ih.trans ?_
    obtain ⟨op, -, hexec⟩ := hlast
    cases op with dsimp only [State.exec] at hexec
    | start | giveBack =>
      split at hexec <;> cases hexec
      exact prefix_rfl
    | add i =>
      split at hexec
      · split at hexec <;> cases hexec
        exact prefix_append ..
      · cases hexec
    | drop i =>
      cases hexec
      exact prefix_rfl

section

variable (h : (system ι ends).Reachable s)
include h

theorem good_of_reachable : Good ends s := by
  refine System.guarded_invariant ?_ ?_ h
  · exact ⟨nofun, nofun, nofun, nofun, nofun, nofun, nofun, nofun, .nil, nofun⟩
  · intro s s' op hs _ hexec
    cases op with
    | start i value => exact good_start hs hexec
    | add i => exact good_add hs hexec
    | giveBack i => exact good_giveBack hs hexec
    | drop i => exact good_drop hs hexec

theorem once {id : Nat} (hret : .returned id value ∈ s.events) :
    s.added id = [(value, id)] := ((good_of_reachable h).returned id value hret).2

/-- The values of a call that returned before another began come first. -/
theorem order : s.events.Pairwise fun later earlier => ∀ a value b size,
      earlier = .returned a value → later = .begun b size →
      ∀ (k l : Nat) (x y : β × Nat), s.index[k]? = some x →
        s.index[l]? = some y → x.2 = a → y.2 = b → k < l := by
  have hs := good_of_reachable h
  refine hs.before.imp_of_mem fun {later earlier} hlater _ hbefore => ?_
  intro a value b size ha hb k l x y hx hy hxa hyb
  subst hb
  have hlt := hbefore a value b size ha rfl k x hx hxa
  have hle := (hs.begun b size hlater).2.2 l y hy hyb
  omega

theorem last {k : Nat} {x : β × Nat} (hx : s.index[k]? = some x) (hend : ends x.1 = true) :
    k + 1 = s.index.length := (good_of_reachable h).last k x hx hend

end

end Lib.Appends
