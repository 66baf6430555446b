/-
Texts of lines, and their beginnings. `split` parts a text into the lines that
end in a newline and what is left. What a reader gets of a growing text is a
beginning of it: whole lines, and a rest without a newline (`split_begins`). A
`Codec` writes values as lines and reads them back.
-/
import Mathlib.Data.List.Basic

namespace Lib.Lines

open List

/-- The lines of a text that end in a newline, and what is left. -/
def split : List Char → List (List Char) × List Char
  | [] => ([], [])
  | c :: text =>
    let rest := split text
    if c = '\n' then ([] :: rest.1, rest.2)
    else match rest.1 with
      | [] => ([], c :: rest.2)
      | line :: lines => ((c :: line) :: lines, rest.2)

def join (lines : List (List Char)) : List Char := lines.flatMap (· ++ ['\n'])

theorem split_plain (u : List Char) (hu : '\n' ∉ u) : split u = ([], u) := by
  induction u with
  | nil => rfl
  | cons c u ih =>
    have hc : c ≠ '\n' := fun h => hu (h ▸ mem_cons_self)
    unfold split
    rw [ih fun h => hu (mem_cons_of_mem _ h)]
    simp only [if_neg hc]

theorem split_append (text u : List Char) (hu : '\n' ∉ u) :
    split (text ++ u) = ((split text).1, (split text).2 ++ u) := by
  induction text with
  | nil => exact split_plain u hu
  | cons c text ih =>
    rw [cons_append]
    simp only [split, ih]
    split
    · rfl
    · cases (split text).1 <;> rfl

theorem split_newline (text : List Char) :
    split (text ++ ['\n']) = ((split text).1 ++ [(split text).2], []) := by
  induction text with
  | nil => rfl
  | cons c text ih =>
    rw [cons_append]
    simp only [split, ih]
    split
    · rfl
    · cases (split text).1 <;> rfl

theorem split_line (line text : List Char) (hline : '\n' ∉ line) :
    split (line ++ '\n' :: text) = (line :: (split text).1, (split text).2) := by
  induction line with
  | nil => rfl
  | cons c line ih =>
    have hc : c ≠ '\n' := fun h => hline (h ▸ mem_cons_self)
    rw [cons_append]
    simp only [split, ih fun h => hline (mem_cons_of_mem _ h), if_neg hc]

theorem join_cons (line : List Char) (lines : List (List Char)) :
    join (line :: lines) = line ++ '\n' :: join lines := by
  unfold join
  rw [flatMap_cons, append_assoc]
  rfl

theorem split_begins {tail : List Char} (htail : '\n' ∉ tail) (lines : List (List Char))
    (hlines : ∀ line ∈ lines, '\n' ∉ line) : ∀ {data : List Char}, data <+: join lines ++ tail →
      ∃ front rest, front <+: lines ∧ data = join front ++ rest ∧ split data = (front, rest) := by
  induction lines with intro data h
  | nil =>
    have hplain : '\n' ∉ data := fun hmem => htail (h.subset hmem)
    exact ⟨[], data, nil_prefix, rfl, split_plain data hplain⟩
  | cons line lines ih =>
    obtain ⟨hline, hlines⟩ := forall_mem_cons.1 hlines
    rw [join_cons, append_assoc, cons_append] at h
    rcases prefix_or_prefix_of_prefix h (prefix_append line _) with hdata | ⟨data', rfl⟩
    · have hplain : '\n' ∉ data := fun hmem => hline (hdata.subset hmem)
      exact ⟨[], data, nil_prefix, rfl, split_plain data hplain⟩
    · have h := (prefix_append_right_inj line).1 h
      cases data' with
      | nil =>
        rw [append_nil]
        exact ⟨[], line, nil_prefix, rfl, split_plain line hline⟩
      | cons c data' =>
        obtain ⟨rfl, hmore⟩ := cons_prefix_cons.1 h
        obtain ⟨front, rest, hfront, rfl, hsplit⟩ := ih hlines hmore
        refine ⟨line :: front, rest, cons_prefix_cons.2 ⟨rfl, hfront⟩, ?_, ?_⟩
        · rw [join_cons, append_assoc]
          rfl
        · rw [split_line _ _ hline, hsplit]

theorem split_join {tail : List Char} (htail : '\n' ∉ tail) (lines : List (List Char))
    (hlines : ∀ line ∈ lines, '\n' ∉ line) : split (join lines ++ tail) = (lines, tail) := by
  induction lines with
  | nil => exact split_plain tail htail
  | cons line lines ih =>
    obtain ⟨hline, hlines⟩ := forall_mem_cons.1 hlines
    rw [join_cons, append_assoc, cons_append, split_line _ _ hline, ih hlines]

/-- Values as lines: every value is read back, and its line is ONE line. -/
structure Codec (ρ : Type*) where
  dumps : ρ → List Char
  loads : List Char → Option ρ
  loads_dumps : ∀ r, loads (dumps r) = some r
  plain : ∀ r, '\n' ∉ dumps r

namespace Codec

variable {ρ : Type*} (codec : Codec ρ)

def text (records : List ρ) : List Char := join (records.map codec.dumps)

theorem text_append (a b : List ρ) : codec.text (a ++ b) = codec.text a ++ codec.text b := by
  unfold text
  rw [map_append]
  exact flatMap_append

theorem text_singleton (r : ρ) : codec.text [r] = codec.dumps r ++ ['\n'] := join_cons _ _

def loadAll (lines : List (List Char)) : Option (List ρ) := lines.mapM codec.loads

theorem loadAll_dumps (records : List ρ) :
    codec.loadAll (records.map codec.dumps) = some records := by
  unfold loadAll
  induction records with
  | nil => rfl
  | cons r records ih =>
    rw [map_cons, mapM_cons, codec.loads_dumps, ih]
    rfl

theorem plain_lines (records : List ρ) : ∀ line ∈ records.map codec.dumps, '\n' ∉ line := by
  intro line hline
  obtain ⟨r, -, rfl⟩ := mem_map.1 hline
  exact codec.plain r

theorem split_text {records : List ρ} {data tail : List Char}
    (htail : '\n' ∉ tail) (h : data <+: codec.text records ++ tail) :
    ∃ k, (split data).1 = (records.take k).map codec.dumps := by
  obtain ⟨front, rest, hfront, -, hsplit⟩ := split_begins htail _ (codec.plain_lines records) h
  refine ⟨front.length, ?_⟩
  rw [hsplit, map_take]
  exact prefix_iff_eq_take.1 hfront

end Codec

end Lib.Lines
