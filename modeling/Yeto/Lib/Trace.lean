/-
Histories, and what each event may rely on. A trace is the list of events of a
run, oldest first. `Upheld P` says that `P` held of every event when it
happened. Also here: changing the first element of a list that answers a test,
and the elements of a list with one more at its end.
-/
import Mathlib.Data.List.Basic

namespace Lib

open List

theorem mem_snoc {ε : Type*} {xs : List ε} {x y : ε} : y ∈ xs ++ [x] ↔ y ∈ xs ∨ y = x := by simp

theorem getElem?_snoc {ε : Type*} {xs : List ε} {x y : ε} {k : Nat} (h : (xs ++ [x])[k]? = some y) :
    xs[k]? = some y ∨ (k = xs.length ∧ y = x) := by
  rcases Nat.lt_or_ge k xs.length with hlt | hge
  · exact .inl (List.getElem?_append_left hlt ▸ h)
  · rw [List.getElem?_append_right hge] at h
    obtain ⟨hk, rfl⟩ := List.getElem?_eq_some_iff.1 h
    rw [length_singleton] at hk
    exact .inr ⟨by omega, getElem_singleton _⟩

theorem snoc_begins {ε : Type*} {xs ys : List ε} {x : ε} (h : xs <+: ys)
    (hx : ys[xs.length]? = some x) : xs ++ [x] <+: ys := by
  obtain ⟨more, rfl⟩ := h
  rw [List.getElem?_append_right (Nat.le_refl _), Nat.sub_self] at hx
  cases more with
  | nil => cases hx
  | cons y more =>
    cases hx
    exact ⟨more, append_assoc ..⟩

section Trace

variable {ε : Type*} {P Q : List ε → ε → Prop} {h : List ε}

/-- `P` held of every event when it happened. -/
def Upheld (P : List ε → ε → Prop) (h : List ε) : Prop :=
  ∀ pre e post, h = pre ++ e :: post → P pre e

theorem upheld_nil : Upheld P [] := by
  intro pre e post heq
  cases pre <;> cases heq

theorem upheld_append {es : List ε} : Upheld P (h ++ es)
      ↔ Upheld P h ∧ ∀ pre e post, es = pre ++ e :: post → P (h ++ pre) e := by
  constructor
  · intro hu
    refine ⟨fun pre e post heq => ?_, fun pre e post heq => ?_⟩
    · exact hu pre e (post ++ es) (by rw [heq]; simp)
    · exact hu (h ++ pre) e post (by rw [heq]; simp)
  · rintro ⟨hu, hes⟩ pre e post heq
    rcases append_eq_append_iff.1 heq with ⟨l, rfl, hl⟩ | ⟨l, hl, heq'⟩
    · exact hes l e post hl
    · cases l with
      | nil =>
        rw [append_nil] at hl
        subst hl
        have := hes [] e post (by simpa using heq'.symm)
        rwa [append_nil] at this
      | cons x l =>
        obtain ⟨rfl, rfl⟩ := List.cons.inj heq'
        exact hu pre e l hl

theorem upheld_snoc {e : ε} : Upheld P (h ++ [e]) ↔ Upheld P h ∧ P h e := by
  rw [upheld_append]
  refine and_congr_right fun _ => ⟨fun hes => ?_, fun he pre e' post heq => ?_⟩
  · have := hes [] e [] rfl
    rwa [append_nil] at this
  · cases pre with
    | nil =>
      obtain ⟨rfl, -⟩ := List.cons.inj heq
      rwa [append_nil]
    | cons x pre =>
      obtain ⟨-, hnil⟩ := List.cons.inj heq
      cases pre <;> cases hnil

/-- A law about the events of kind `q`, which speaks of nothing else,
holds of a history where it holds of those events alone. -/
theorem Upheld.of_filter {q : ε → Bool} (hu : Upheld P (h.filter q))
    (hother : ∀ pre e, q e = false → P pre e)
    (hpre : ∀ pre e, P (pre.filter q) e → P pre e) : Upheld P h := by
  intro pre e post heq
  cases hq : q e with
  | false => exact hother pre e hq
  | true =>
    refine hpre pre e (hu _ e (post.filter q) ?_)
    rw [heq, filter_append, filter_cons_of_pos hq]

end Trace

section Update

variable {α β : Type*}

/-- Change the first element that answers `q`, and return what the change
yields. -/
def updateFirst (q : α → Bool) (f : α → β × α) : List α → Option (β × List α)
  | [] => none
  | a :: as =>
    if q a then some ((f a).1, (f a).2 :: as)
    else (updateFirst q f as).map fun r => (r.1, a :: r.2)

variable {q : α → Bool} {f : α → β × α}

theorem updateFirst_eq_none {l : List α} (h : updateFirst q f l = none) :
    ∀ x ∈ l, q x = false := by
  induction l with
  | nil => exact nofun
  | cons a l ih =>
    unfold updateFirst at h
    by_cases ha : q a = true
    · rw [if_pos ha] at h
      cases h
    · rw [if_neg ha] at h
      exact forall_mem_cons.2 ⟨Bool.eq_false_iff.2 ha, ih (Option.map_eq_none_iff.1 h)⟩

theorem updateFirst_eq_some {l l' : List α} {b : β} (h : updateFirst q f l = some (b, l')) :
    ∃ l₁ a l₂, l = l₁ ++ a :: l₂ ∧ (∀ x ∈ l₁, q x = false) ∧ q a = true
      ∧ b = (f a).1 ∧ l' = l₁ ++ (f a).2 :: l₂ := by
  induction l generalizing l' with
  | nil => cases h
  | cons a as ih =>
    unfold updateFirst at h
    by_cases ha : q a = true
    · rw [if_pos ha] at h
      cases h
      exact ⟨[], a, as, rfl, (by simp), ha, rfl, rfl⟩
    · rw [if_neg ha] at h
      obtain ⟨r, hr, heq⟩ := Option.map_eq_some_iff.1 h
      cases heq
      obtain ⟨l₁, x, l₂, rfl, hl₁, hx, hb, hl'⟩ := ih hr
      refine ⟨a :: l₁, x, l₂, rfl, ?_, hx, hb, by rw [hl']; rfl⟩
      rintro y (_ | ⟨_, hy⟩)
      · exact Bool.eq_false_iff.2 ha
      · exact hl₁ y hy

end Update

end Lib
