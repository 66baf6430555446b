/-
Following a pointer from every member of a list.

`closeOver` is the worklist loop: pop a member, and when what it points to
is not kept yet, keep it and put it on the list. Where every pointer leads
to something of smaller rank, the loop has enough fuel with the sum of the
ranks (`weight`), and what it keeps is exactly what the members reach
(`mem_closeOver_iff`).
-/
import Mathlib.Logic.Relation
import Mathlib.Data.List.DropRight
import Mathlib.Algebra.GroupWithZero.Nat

namespace Lib

open List

/-- `b` is `a`, or what `a` points to, or what that points to, … -/
def Leads {α : Type*} (next : α → Option α) : α → α → Prop :=
  Relation.ReflTransGen fun a b => next a = some b

def closeOver {α : Type*} [DecidableEq α] (next : α → Option α) : Nat → List α → List α → List α
  | 0, _, kept => kept
  | _ + 1, [], kept => kept
  | fuel + 1, a :: pending, kept =>
    match next a with
    | none => closeOver next fuel pending kept
    | some b =>
      if b ∈ kept then closeOver next fuel pending kept
      else closeOver next fuel (b :: pending) (b :: kept)

/-- Fuel enough for a list whose pointers go down in rank. -/
def weight {α : Type*} (rank : α → Nat) (l : List α) : Nat := (l.map fun a => rank a + 1).sum

section Leads

variable {α : Type*} {next next' : α → Option α} {a b : α}

theorem Leads.rank_le {rank : α → Nat} (hrank : ∀ a b, next a = some b → rank b < rank a)
    (h : Leads next a b) : rank b ≤ rank a := by
  induction h with
  | refl => exact le_rfl
  | tail _ hstep ih => exact le_trans (Nat.le_of_lt (hrank _ _ hstep)) ih

theorem Leads.mono (h : Leads next a b)
    (hsub : ∀ a b, next a = some b → next' a = some b) : Leads next' a b := by
  induction h with
  | refl => exact Relation.ReflTransGen.refl
  | tail _ hstep ih => exact ih.tail (hsub _ _ hstep)

theorem Leads.congr (h : Leads next a b)
    (heq : ∀ c, Leads next a c → next' c = next c) : Leads next' a b := by
  induction h with
  | refl => exact Relation.ReflTransGen.refl
  | @tail c d hpath hstep ih =>
    refine ih.tail ?_
    show next' c = some d
    rw [heq c hpath]
    exact hstep

end Leads

section Closure

variable {α : Type*} [DecidableEq α] {next : α → Option α} {rank : α → Nat}

theorem mem_closeOver_of_mem {x : α} {fuel : Nat} : ∀ {pending kept : List α}, x ∈ kept →
      x ∈ closeOver next fuel pending kept := by
  induction fuel with
  | zero => exact id
  | succ fuel ih =>
    intro pending kept hx
    cases pending with
    | nil => exact hx
    | cons a pending =>
      unfold closeOver
      split
      · exact ih hx
      · split
        · exact ih hx
        · exact ih (mem_cons_of_mem _ hx)

theorem leads_of_mem_closeOver {start : List α} {x : α} {fuel : Nat} :
    ∀ {pending kept : List α}, (∀ a ∈ pending, a ∈ kept) →
      (∀ a ∈ kept, ∃ s ∈ start, Leads next s a) →
      x ∈ closeOver next fuel pending kept → ∃ s ∈ start, Leads next s x := by
  induction fuel with
  | zero => exact fun _ hkept hx => hkept x hx
  | succ fuel ih =>
    intro pending kept hsub hkept hx
    cases pending with
    | nil => exact hkept x hx
    | cons a pending =>
      have hrest : ∀ c ∈ pending, c ∈ kept := fun c hc => hsub c (mem_cons_of_mem _ hc)
      unfold closeOver at hx
      split at hx
      · exact ih hrest hkept hx
      next b hb =>
      split at hx
      · exact ih hrest hkept hx
      refine ih ?_ ?_ hx <;> intro c hc
      · rcases mem_cons.1 hc with rfl | hc
        · exact mem_cons_self ..
        · exact mem_cons_of_mem _ (hrest c hc)
      · rcases mem_cons.1 hc with rfl | hc
        · obtain ⟨s, hs, hpath⟩ := hkept a (hsub a (mem_cons_self ..))
          exact ⟨s, hs, hpath.tail hb⟩
        · exact hkept c hc

/-- With enough fuel nothing kept points outside. -/
theorem closed_closeOver (hrank : ∀ a b, next a = some b → rank b < rank a)
    {fuel : Nat} : ∀ {pending kept : List α}, weight rank pending ≤ fuel →
      (∀ a ∈ kept, a ∈ pending ∨ ∀ b, next a = some b → b ∈ kept) →
      ∀ a ∈ closeOver next fuel pending kept, ∀ b, next a = some b →
        b ∈ closeOver next fuel pending kept := by
  induction fuel with intro pending kept hfuel hopen
  | zero =>
    cases pending with
    | nil => exact fun a ha => (hopen a ha).resolve_left not_mem_nil
    | cons c pending =>
      unfold weight at hfuel
      rw [map_cons, sum_cons] at hfuel
      omega
  | succ fuel ih =>
    cases pending with
    | nil => exact fun a ha => (hopen a ha).resolve_left not_mem_nil
    | cons c pending =>
      have hrest : weight rank pending + (rank c + 1) ≤ fuel + 1 := by
        unfold weight at hfuel ⊢
        rw [map_cons, sum_cons] at hfuel
        omega
      -- The popped member is settled as soon as its pointer is kept.
      have hsettle : ∀ (more : List α) {kept' : List α}, kept ⊆ kept' →
          (∀ b, next c = some b → b ∈ kept') → ∀ a ∈ kept,
          a ∈ more ++ pending ∨ ∀ b, next a = some b → b ∈ kept' := by
        intro more kept' hsub hc a ha
        rcases hopen a ha with h | h
        · rcases mem_cons.1 h with rfl | h
          · exact .inr hc
          · exact .inl (mem_append_right _ h)
        · exact .inr fun b hb => hsub (h b hb)
      unfold closeOver
      split
      · next hnone =>
        refine ih (by omega) (hsettle [] (fun _ h => h) fun b hb => ?_)
        rw [hnone] at hb
        cases hb
      · next d hd =>
        have honly : ∀ b, next c = some b → b = d := fun b hb => Option.some.inj (hb.symm.trans hd)
        split
        · next hmem => exact ih (by omega) (hsettle [] (fun _ h => h) fun b hb => honly b hb ▸ hmem)
        · have hlt := hrank c d hd
          refine ih ?_ ?_
          · unfold weight at hrest ⊢
            rw [map_cons, sum_cons]
            omega
          · intro a ha
            rcases mem_cons.1 ha with rfl | ha
            · exact .inl (mem_cons_self ..)
            · exact hsettle [d] (subset_cons_self ..) (fun b hb => honly b hb ▸ mem_cons_self) a ha

theorem mem_closeOver_iff (hrank : ∀ a b, next a = some b → rank b < rank a)
    {start : List α} {x : α} : x ∈ closeOver next (weight rank start) start start
      ↔ ∃ s ∈ start, Leads next s x := by
  refine ⟨fun hx => ?_, ?_⟩
  · exact leads_of_mem_closeOver (fun a ha => ha)
      (fun a ha => ⟨a, ha, Relation.ReflTransGen.refl⟩) hx
  · rintro ⟨s, hs, hpath⟩
    induction hpath with
    | refl => exact mem_closeOver_of_mem hs
    | tail _ hstep ih => exact closed_closeOver hrank le_rfl (fun a ha => .inl ha) _ ih _ hstep

end Closure

end Lib
