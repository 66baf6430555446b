/-
What a restart reads in a cursor log.

An append behind a torn tail makes a line no restart can read
(`cursorOf_behind`). `MayRestart` are the cursors a restart may find: that of
the tail, if it is a whole record, and that of the last whole line. The proofs
about the takes use nothing else.
-/
import Yeto.Lanes.Model

namespace Yeto.Lanes

open Lib List Option Json Log
open Lib.Lines (split split_append split_newline)

variable {texts : List (List Char)} {tail u : List Char} {n read rolloutId : Nat} {text : List Char}

theorem newline_not_mem {r : Json.Record} : '\n' ∉ r.dumps := fun h =>
  absurd (r.le_dumps _ h) (by decide)

theorem split_record {r : Json.Record} : split (text ++ r.dumps ++ ['\n'])
      = ((split text).1 ++ [(split text).2 ++ r.dumps], []) := by
  rw [split_newline, split_append _ _ newline_not_mem]

theorem cursorOf_record (rolloutId : Nat) (positions : List Nat) (cursor : Nat) :
    cursorOf (record rolloutId positions cursor).dumps = some cursor := by
  unfold cursorOf
  rw [loads_dumps]
  rfl

/-- A tail: beginnings of records, one behind the other. -/
def Torn (tail : List Char) : Prop := ∃ us : List (List Char), tail = us.flatten
    ∧ ∀ u ∈ us, ∃ r : Json.Record, u <+: r.dumps

theorem torn_nil : Torn [] := ⟨[], rfl, nofun⟩

variable {r : Json.Record}

theorem Torn.append (h : Torn tail) (hu : u <+: r.dumps) : Torn (tail ++ u) := by
  obtain ⟨us, rfl, hus⟩ := h
  refine ⟨us ++ [u], by simp, forall_mem_append.2 ⟨hus, ?_⟩⟩
  exact forall_mem_singleton.2 ⟨r, hu⟩

/-- A line that was written behind a tail reads as a record only if the tail
was empty and the record is whole. -/
theorem cursorOf_behind {c : Nat} (htail : Torn tail) (hu : u <+: r.dumps) (hne : u ≠ [])
    (h : cursorOf (tail ++ u) = some c) : tail = [] ∧ u = r.dumps := by
  obtain ⟨us, rfl, hus⟩ := htail
  have hloads : ∃ v, loads (us ++ [u]).flatten = some v := by
    have hflat : (us ++ [u]).flatten = us.flatten ++ u := by simp
    rw [hflat]
    unfold cursorOf at h
    cases hv : loads (us.flatten ++ u) with
    | none =>
      rw [hv] at h
      cases h
    | some v => exact ⟨v, rfl⟩
  obtain ⟨v, hv⟩ := hloads
  obtain ⟨r', hfilter, -⟩ := loads_pieces
    (forall_mem_append.2 ⟨hus, forall_mem_singleton.2 ⟨r, hu⟩⟩) hv
  have hlast : [u].filter (· ≠ []) = [u] := by simp [hne]
  rw [filter_append, hlast] at hfilter
  obtain ⟨hempty, hwhole⟩ : us.filter (· ≠ []) = [] ∧ u = r'.dumps := by
    rcases append_eq_singleton_iff.1 hfilter with ⟨hus, hu⟩ | ⟨-, hu⟩
    · exact ⟨hus, singleton_inj.1 hu⟩
    · cases hu
  refine ⟨?_, ?_⟩
  · rw [flatten_eq_nil_iff]
    intro x hx
    by_contra hx'
    have : x ∈ us.filter (· ≠ []) := mem_filter.2 ⟨hx, by simpa using hx'⟩
    rw [hempty] at this
    cases this
  · rw [hwhole] at hu ⊢
    exact dumps_eq_of_begins hu

def Log.MayRestart (log : Log) (c : Nat) : Prop :=
  match log with
  | .file text => cursorOf (split text).2 = some c
      ∨ (∃ line, (split text).1.getLast? = some line ∧ cursorOf line = some c)
      ∨ ((split text).1 = [] ∧ c = 0)
  | .objects texts => (∃ text, texts.getLast? = some text ∧ cursorOf text = some c)
      ∨ (texts = [] ∧ c = 0)

/-- The last line that ends in a newline reads as a record. -/
def Log.clean : Log → Bool
  | .file text => (split text).1.getLast?.all fun line =>
    (cursorOf line).isSome
  | .objects _ => true

/-- What every log is: torn at most in its tail, and of whole objects. -/
def Log.Shape : Log → Prop
  | .file text => Torn (split text).2
  | .objects texts => ∀ text ∈ texts, (cursorOf text).isSome = true

/-- The writer listed all objects, but for one whose put it takes for
failed. -/
def Log.Lists (log : Log) (keys : Nat) : Prop :=
  match log with
  | .file _ => True
  | .objects texts => keys ≤ texts.length ∧ texts.length ≤ keys + 1

section Restart

variable {log : Log} {keys c : Nat}

theorem mayRestart_lastCursor (hshape : log.Shape) (hclean : log.clean = true) :
    log.MayRestart log.lastCursor := by
  cases log with
  | file text =>
    dsimp only [clean] at hclean
    -- What the lines that end in a newline leave.
    have hlines : (∃ line, (split text).1.getLast? = some line ∧ cursorOf line
          = some ((split text).1.foldl (fun cursor line => (cursorOf line).getD cursor) 0))
        ∨ ((split text).1 = [] ∧ (split text).1.foldl
            (fun cursor line => (cursorOf line).getD cursor) 0 = 0) := by
      rcases eq_nil_or_concat (split text).1 with h | ⟨lines, line, h⟩
      · rw [h]
        exact .inr ⟨rfl, rfl⟩
      · rw [h, concat_eq_append, getLast?_concat] at hclean
        obtain ⟨c, hc⟩ := isSome_iff_exists.1 hclean
        refine .inl ⟨line, by rw [h, concat_eq_append, getLast?_concat], ?_⟩
        rw [h, concat_eq_append, foldl_append, foldl_cons, foldl_nil, hc]
        rfl
    unfold Log.MayRestart lastCursor splitlines
    dsimp only
    by_cases htail : (split text).2 = []
    · rw [if_pos htail, append_nil]
      exact .inr hlines
    · rw [if_neg htail, foldl_append, foldl_cons, foldl_nil]
      cases hc : cursorOf (split text).2 with
      | none => exact .inr hlines
      | some c => exact .inl rfl
  | objects texts =>
    unfold Log.MayRestart lastCursor
    rcases eq_nil_or_concat texts with rfl | ⟨ts, text, rfl⟩
    · exact .inr ⟨rfl, rfl⟩
    · obtain ⟨c, hc⟩ := isSome_iff_exists.1 (hshape text (by simp))
      simp [hc]

theorem getLast?_putAt (hlists : (objects texts).Lists keys) (text : List Char) :
    (putAt texts keys text).getLast? = some text := by
  obtain ⟨hle, hge⟩ := hlists
  unfold putAt
  split
  · rw [getLast?_eq_getElem?, length_set, getElem?_set]
    rw [if_pos (by omega), if_pos (by omega)]
  · exact getLast?_concat ..

theorem mem_putAt {k : Nat} {x : List Char} (h : x ∈ putAt texts k text) :
    x ∈ texts ∨ x = text := by
  unfold putAt at h
  split at h
  · exact mem_or_eq_of_mem_set h
  · rcases mem_append.1 h with h | h
    · exact .inl h
    · exact .inr (mem_singleton.1 h)

variable {positions : List Nat}

theorem mayRestart_append (log : Log) (keys : Nat) (hshape : log.Shape) (hlists : log.Lists keys)
    (h : (log.append keys (record rolloutId positions read)).MayRestart c) : c = read := by
  have hcursor := cursorOf_record rolloutId positions read
  cases log with unfold Log.append Log.MayRestart at h
  | file text =>
    dsimp only at h
    rw [split_record] at h
    rcases h with h | ⟨line, hline, h⟩ | ⟨h, -⟩
    · cases h
    · rw [getLast?_concat] at hline
      obtain rfl := some.inj hline
      obtain ⟨htail, -⟩ := cursorOf_behind hshape (prefix_refl _) (cons_ne_nil _ _) h
      rw [htail, nil_append, hcursor] at h
      exact (some.inj h).symm
    · exact absurd h (by simp)
  | objects texts =>
    rcases h with ⟨text, htext, h⟩ | ⟨h, -⟩
    · rw [getLast?_putAt hlists] at htext
      cases htext
      exact (some.inj (hcursor.symm.trans h)).symm
    · have hlast := getLast?_putAt hlists (record rolloutId positions read).dumps
      rw [h] at hlast
      cases hlast

theorem shape_append (log : Log) (keys : Nat) (hshape : log.Shape) :
    (log.append keys (record rolloutId positions read)).Shape := by
  cases log with
  | file text =>
    unfold Log.append Log.Shape
    dsimp only
    rw [split_record]
    exact torn_nil
  | objects texts =>
    intro text htext
    rcases mem_putAt htext with htext | rfl
    · exact hshape text htext
    · rw [cursorOf_record]
      rfl

theorem lists_append (hlists : log.Lists keys) : (log.append keys r).Lists (keys + 1) := by
  cases log with
  | file text => trivial
  | objects texts =>
    obtain ⟨hle, hge⟩ := hlists
    unfold Log.append Log.Lists putAt
    dsimp only
    split
    · rw [length_set]
      omega
    · rw [length_append, length_singleton]
      omega

theorem take_record : (r.dumps ++ ['\n']).take n = r.dumps ++ ['\n']
      ∨ (r.dumps ++ ['\n']).take n <+: r.dumps := by
  rcases Nat.lt_or_ge r.dumps.length n with hlt | hge
  · refine .inl (take_of_length_le ?_)
    rw [length_append, length_singleton]
    omega
  · rw [take_append_of_le_length hge]
    exact .inr (List.take_prefix _ _)

/-- A torn append is whole, or writes nothing, or a beginning of its
record. -/
theorem tear_cases (log : Log) (keys : Nat) (r : Json.Record) (n : Nat) :
    log.tear keys r n = log.append keys r ∨ log.tear keys r n = log
      ∨ ∃ text u, log = .file text ∧ u <+: r.dumps ∧ log.tear keys r n = .file (text ++ u) := by
  cases log with
  | file text =>
    rcases take_record with hall | hbegins
    · left
      unfold tear Log.append
      dsimp only
      rw [hall, append_assoc]
    · exact .inr (.inr ⟨text, _, rfl, hbegins, rfl⟩)
  | objects texts =>
    dsimp only [tear]
    split
    · exact .inr (.inl rfl)
    · exact .inl rfl

theorem split_begins (text : List Char) (hu : u <+: r.dumps) :
    split (text ++ u) = ((split text).1, (split text).2 ++ u) :=
  split_append _ _ fun hmem => newline_not_mem (hu.subset hmem)

theorem mayRestart_tear (hshape : log.Shape) (hlists : log.Lists keys)
    (h : (log.tear keys (record rolloutId positions read) n).MayRestart c) :
    log.MayRestart c ∨ c = read := by
  rcases tear_cases log keys (record rolloutId positions read) n with
    heq | heq | ⟨text, u, rfl, hu, heq⟩ <;> rw [heq] at h
  · exact .inr (mayRestart_append log keys hshape hlists h)
  · exact .inl h
  · dsimp only [Log.MayRestart] at h
    rw [split_begins text hu] at h
    rcases h with h | h
    · by_cases hne : u = []
      · rw [hne, append_nil] at h
        exact .inl (.inl h)
      · obtain ⟨htail, rfl⟩ := cursorOf_behind hshape hu hne h
        rw [htail, nil_append, cursorOf_record] at h
        exact .inr (some.inj h).symm
    · exact .inl (.inr h)

theorem shape_tear (hshape : log.Shape) :
    (log.tear keys (record rolloutId positions read) n).Shape := by
  rcases tear_cases log keys (record rolloutId positions read) n with
    heq | heq | ⟨text, u, rfl, hu, heq⟩ <;> rw [heq]
  · exact shape_append log keys hshape
  · exact hshape
  · dsimp only [Log.Shape]
    rw [split_begins text hu]
    exact Torn.append hshape hu

theorem lists_tear (hlists : log.Lists keys) : (log.tear keys r n).Lists keys := by
  cases log with
  | file text => trivial
  | objects texts =>
    obtain ⟨hle, hge⟩ := hlists
    dsimp only [tear]
    split
    · exact ⟨hle, hge⟩
    unfold Log.Lists putAt
    dsimp only
    split
    · rw [length_set]
      exact ⟨hle, hge⟩
    · rw [length_append, length_singleton]
      omega

end Restart

end Yeto.Lanes
