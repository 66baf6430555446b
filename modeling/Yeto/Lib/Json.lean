/-
A reader of JSON texts, one character at a time, and the texts of records.

The reader is a stack machine: a mode says what may come next, a stack holds
the arrays and objects that are still open. It reads objects, arrays, numbers
without sign or fraction, and strings without escapes. A record is an object
of numbers and lists of numbers under plain keys (`dumps`).

A record reads back as itself (`loads_dumps`). A text made of several
beginnings of records reads as a value only if it is ONE whole record
(`loads_pieces`): a beginning never closes what was open before
(`Reads.begins`), and cannot be read where no value may start (`piece_deep`).
-/
import Mathlib.Data.List.Basic

namespace Lib.Json

open Option

open List

inductive Value
  | num (n : Nat)
  | str (cs : List Char)
  | arr (xs : List Value)
  | obj (kvs : List (List Char × Value))

/-- An open array, an open object, or the key whose value is being read. -/
inductive Frame
  | arr (xs : List Value)
  | obj (kvs : List (List Char × Value))
  | pair (key : List Char)

inductive Mode
  | value
  | first
  | firstKey
  | key
  | keyText (cs : List Char)
  | colon
  | text (cs : List Char)
  | number (n : Nat)
  | after
  | finished (v : Value)

structure State where
  mode : Mode
  stack : List Frame

/-- A value is complete: give it to the frame it is in. -/
def complete (v : Value) : List Frame → Option State
  | [] => some ⟨.finished v, []⟩
  | .arr xs :: st => some ⟨.after, .arr (xs ++ [v]) :: st⟩
  | .pair k :: .obj kvs :: st => some ⟨.after, .obj (kvs ++ [(k, v)]) :: st⟩
  | _ => none

def isBlank (c : Char) : Bool := c == ' ' || c == '\t' || c == '\n' || c == '\r'

def isPlain (c : Char) : Bool := decide (' ' ≤ c) && c != '"' && c != '\\'

def digitOf (c : Char) : Nat := c.toNat - '0'.toNat

def start (c : Char) (st : List Frame) : Option State :=
  if c = '"' then some ⟨.text [], st⟩
  else if c = '{' then some ⟨.firstKey, .obj [] :: st⟩
  else if c = '[' then some ⟨.first, .arr [] :: st⟩
  else if c.isDigit then some ⟨.number (digitOf c), st⟩
  else none

def follow (c : Char) : List Frame → Option State
  | .arr xs :: st =>
    if c = ',' then some ⟨.value, .arr xs :: st⟩
    else if c = ']' then complete (.arr xs) st
    else none
  | .obj kvs :: st =>
    if c = ',' then some ⟨.key, .obj kvs :: st⟩
    else if c = '}' then complete (.obj kvs) st
    else none
  | _ => none

def next (s : State) (c : Char) : Option State :=
  if isBlank c then some s
  else match s.mode with
    | .value => start c s.stack
    | .first => if c = ']' then follow c s.stack else start c s.stack
    | .firstKey =>
      if c = '}' then follow c s.stack
      else if c = '"' then some ⟨.keyText [], s.stack⟩
      else none
    | .key => if c = '"' then some ⟨.keyText [], s.stack⟩ else none
    | .colon => if c = ':' then some ⟨.value, s.stack⟩ else none
    | .after => follow c s.stack
    | _ => none

def step (s : State) (c : Char) : Option State :=
  match s.mode with
  | .keyText cs =>
    if c = '"' then some ⟨.colon, .pair cs :: s.stack⟩
    else if isPlain c then some ⟨.keyText (cs ++ [c]), s.stack⟩
    else none
  | .text cs =>
    if c = '"' then complete (.str cs) s.stack
    else if isPlain c then some ⟨.text (cs ++ [c]), s.stack⟩
    else none
  | .number n =>
    if c.isDigit then
      -- No number but 0 begins with 0.
      if n = 0 then none else some ⟨.number (10 * n + digitOf c), s.stack⟩
    else (complete (.num n) s.stack).bind fun s => next s c
  | _ => next s c

def run (s : State) (t : List Char) : Option State := t.foldlM step s

def finish (s : State) : Option Value :=
  match s.mode, s.stack with
  | .finished v, [] => some v
  | .number n, [] => some (.num n)
  | _, _ => none

def loads (t : List Char) : Option Value := (run ⟨.value, []⟩ t).bind finish

def Value.get (key : List Char) : Value → Option Value
  | .obj kvs => kvs.reverse.lookup key
  | _ => none

/-- A value of a record. -/
inductive Item
  | num (n : Nat)
  | nums (ns : List Nat)

def Item.value : Item → Value
  | .num n => .num n
  | .nums ns => .arr (ns.map .num)

def digits (n : Nat) : List Char := Nat.toDigits 10 n

def moreNums : List Nat → List Char
  | [] => []
  | n :: ns => ',' :: ' ' :: digits n ++ moreNums ns

def Item.dumps : Item → List Char
  | .num n => digits n
  | .nums [] => ['[', ']']
  | .nums (n :: ns) => '[' :: digits n ++ moreNums ns ++ [']']

structure Key where
  head : Char
  tail : List Char
  lower : head.isLower = true
  plain : ∀ c ∈ tail, isPlain c = true

def Key.chars (k : Key) : List Char := k.head :: k.tail

def dumpsPair (k : Key) (x : Item) : List Char :=
  '"' :: k.chars ++ ['"', ':', ' '] ++ x.dumps

def morePairs : List (Key × Item) → List Char
  | [] => []
  | (k, x) :: kxs => ',' :: ' ' :: dumpsPair k x ++ morePairs kxs

structure Record where
  head : Key × Item
  tail : List (Key × Item)

def Record.dumps (r : Record) : List Char :=
  '{' :: dumpsPair r.head.1 r.head.2 ++ morePairs r.tail ++ ['}']

def Record.pairs (r : Record) : List (List Char × Value) :=
  (r.head :: r.tail).map fun kx => (kx.1.chars, kx.2.value)

def Record.value (r : Record) : Value := .obj r.pairs

/-- The arrays and objects that are open. -/
def depth : List Frame → Nat
  | [] => 0
  | .pair _ :: st => depth st
  | _ :: st => depth st + 1

def Deep (d : Nat) (s : State) : Prop := d ≤ depth s.stack

/-- The text is read from one state to another, and `P` holds after each
character. -/
inductive Reads (P : State → Prop) : State → List Char → State → Prop
  | nil (s : State) : Reads P s [] s
  | cons {s s₁ s₂ : State} {c : Char} {t : List Char} (hstep : step s c = some s₁)
      (hP : P s₁) (h : Reads P s₁ t s₂) : Reads P s (c :: t) s₂

section Reads

variable {P : State → Prop} {s s₁ s₂ : State} {t u : List Char}

theorem run_cons {c : Char} (h : step s c = some s₁) : run s (c :: t) = run s₁ t := by
  show (step s c).bind _ = _
  rw [h]
  rfl

theorem Reads.run (h : Reads P s t s₁) : run s t = some s₁ := by
  induction h with
  | nil s => rfl
  | cons hstep hP h ih => rw [run_cons hstep, ih]

theorem Reads.append (h : Reads P s t s₁) (h' : Reads P s₁ u s₂) : Reads P s (t ++ u) s₂ := by
  induction h with
  | nil s => exact h'
  | cons hstep hP h ih => exact .cons hstep hP (ih h')

theorem Reads.begins (h : Reads P s t s₁) (hu : u <+: t) (hne : u ≠ []) :
    ∃ s₂, Json.run s u = some s₂ ∧ P s₂ := by
  induction h generalizing u with
  | nil s => exact absurd (prefix_nil.1 hu) hne
  | @cons s s₁ s₂ c t hstep hP h ih =>
    obtain ⟨u', rfl, hu'⟩ : ∃ u', u = c :: u' ∧ u' <+: t := by
      cases u with
      | nil => exact absurd rfl hne
      | cons x u' =>
        obtain ⟨rfl, hu'⟩ := cons_prefix_cons.1 hu
        exact ⟨u', rfl, hu'⟩
    cases u' with
    | nil => exact ⟨s₁, run_cons hstep, hP⟩
    | cons x u'' =>
      obtain ⟨s₃, hrun, hP₃⟩ := ih hu' (cons_ne_nil _ _)
      exact ⟨s₃, (run_cons hstep).trans hrun, hP₃⟩

end Reads

theorem run_append {s : State} {t : List Char} {u : List Char} :
    run s (t ++ u) = (run s t).bind fun s₁ => run s₁ u := by
  unfold run
  rw [foldlM_append]
  rfl

theorem run_singleton {s : State} {c : Char} : run s [c] = step s c := by
  show (step s c).bind some = _
  cases step s c <;> rfl

variable {s s' : State} {c : Char} {v : Value} {u : List Char} {r : Record}

theorem depth_complete {st : List Frame}
    (h : complete v st = some s) : depth s.stack = depth st := by
  unfold complete at h
  split at h <;> cases h <;> rfl

theorem ne_of_isDigit (h : c.isDigit = true) :
    isBlank c = false ∧ c ≠ '"' ∧ c ≠ '{' ∧ c ≠ '[' ∧ c ≠ ']' := by
  refine ⟨Bool.eq_false_iff.2 fun hb => ?_, ?_, ?_, ?_, ?_⟩
  · simp only [isBlank, Bool.or_eq_true, beq_iff_eq] at hb
    rcases hb with ((rfl | rfl) | rfl) | rfl <;> cases h
  all_goals
    rintro rfl
    cases h

theorem ne_of_isLower (h : c.isLower = true) :
    isBlank c = false ∧ c ≠ '"' ∧ c ≠ ':' ∧ c ≠ ',' ∧ c ≠ ']' ∧ c ≠ '}' := by
  refine ⟨Bool.eq_false_iff.2 fun hb => ?_, ?_, ?_, ?_, ?_, ?_⟩
  · simp only [isBlank, Bool.or_eq_true, beq_iff_eq] at hb
    rcases hb with ((rfl | rfl) | rfl) | rfl <;> cases h
  all_goals
    rintro rfl
    cases h

theorem isPlain_of_isLower (h : c.isLower = true) : isPlain c = true := by
  obtain ⟨-, hquote, -⟩ := ne_of_isLower h
  have hslash : c ≠ '\\' := by
    rintro rfl
    cases h
  have hle : ' ' ≤ c := by
    obtain ⟨hge, -⟩ := Bool.and_eq_true_iff.1 h
    exact UInt32.le_trans (by decide) (of_decide_eq_true hge)
  simp [isPlain, hquote, hslash, hle]

theorem digitOf_digitChar : ∀ d < 10, digitOf (Nat.digitChar d) = d := by decide

def Starts (s : State) : Prop := s.mode = .value ∨ s.mode = .first

theorem step_digit (hs : Starts s) (hc : c.isDigit = true) :
    step s c = some ⟨.number (digitOf c), s.stack⟩ := by
  obtain ⟨hblank, hquote, hbrace, hbracket, hclose⟩ := ne_of_isDigit hc
  obtain ⟨mode, st⟩ := s
  rcases hs with rfl | rfl <;> simp [step, next, start, *]

theorem reads_digits {d : Nat} (hs : Starts s) (hd : d ≤ depth s.stack) (n : Nat) :
    Reads (Deep d) s (digits n) ⟨.number n, s.stack⟩ := by
  unfold digits
  have hdigit : ∀ {n}, n < 10 → (Nat.digitChar n).isDigit = true := fun h => by
    rw [Nat.isDigit_digitChar, decide_eq_true h]
  induction n using Nat.strongRecOn with
  | ind n ih =>
    rcases Nat.lt_or_ge n 10 with hlt | hge
    · rw [Nat.toDigits_of_lt_base hlt]
      have hstep := step_digit hs (hdigit hlt)
      rw [digitOf_digitChar n hlt] at hstep
      exact .cons hstep hd (.nil _)
    · rw [Nat.toDigits_of_base_le (by decide) hge]
      have hlt : n % 10 < 10 := Nat.mod_lt _ (by decide)
      have hpos : n / 10 ≠ 0 := by omega
      have hstep : step ⟨.number (n / 10), s.stack⟩ (Nat.digitChar (n % 10))
          = some ⟨.number n, s.stack⟩ := by
        simp only [step, hdigit hlt, if_true, hpos, if_false, digitOf_digitChar _ hlt]
        rw [Nat.div_add_mod]
      exact (ih (n / 10) (by omega)).append (.cons hstep hd (.nil _))

/-- The next character is read as the one after the last value of the top
array or object. -/
def Ends (s : State) (st : List Frame) : Prop :=
  ∀ c : Char, c.isDigit = false → isBlank c = false → step s c = follow c st

theorem ends_after (st : List Frame) : Ends ⟨.after, st⟩ st := by
  intro c _ hblank
  simp [step, next, hblank]

theorem ends_number_arr (n : Nat) (xs : List Value) {st : List Frame} :
    Ends ⟨.number n, .arr xs :: st⟩ (.arr (xs ++ [.num n]) :: st) := by
  intro c hdigit hblank
  simp [step, next, complete, hdigit, hblank]

theorem ends_number_obj (n : Nat) (k : List Char)
    {kvs : List (List Char × Value)} {st : List Frame} : Ends ⟨.number n, .pair k :: .obj kvs :: st⟩
      (.obj (kvs ++ [(k, .num n)]) :: st) := by
  intro c hdigit hblank
  simp [step, next, complete, hdigit, hblank]

section Parts

variable {d : Nat} {st : List Frame}

theorem reads_moreNums (st : List Frame) (ns : List Nat) : ∀ (n : Nat) (xs : List Value),
    d ≤ depth st + 1 → ∃ m ys, Reads (Deep d) ⟨.number n, .arr xs :: st⟩ (moreNums ns)
        ⟨.number m, .arr ys :: st⟩ ∧ ys ++ [.num m] = xs ++ (n :: ns).map .num := by
  induction ns with
  | nil =>
    intro n xs _
    exact ⟨n, xs, .nil _, rfl⟩
  | cons k ns ih =>
    intro n xs hd
    have hd' : ∀ zs : List Value, d ≤ depth (.arr zs :: st) := fun zs => hd
    obtain ⟨m, ys, hreads, hys⟩ := ih k (xs ++ [.num n]) hd
    have hcomma : step ⟨.number n, .arr xs :: st⟩ ','
        = some ⟨.value, .arr (xs ++ [.num n]) :: st⟩ := ends_number_arr n xs ',' rfl rfl
    have hdigits := reads_digits (d := d)
      (s := ⟨.value, .arr (xs ++ [.num n]) :: st⟩) (.inl rfl) (hd' _) k
    refine ⟨m, ys, .cons hcomma (hd' _) (.cons rfl (hd' _) (hdigits.append hreads)), ?_⟩
    rw [hys, append_assoc]
    rfl

theorem reads_item (x : Item) (k : List Char) {kvs : List (List Char × Value)}
    (hd : d ≤ depth st + 1) : ∃ s, Reads (Deep d) ⟨.value, .pair k :: .obj kvs :: st⟩ x.dumps s
      ∧ Ends s (.obj (kvs ++ [(k, x.value)]) :: st) := by
  have hd' : ∀ zs, d ≤ depth (.pair k :: .obj zs :: st) := fun zs => hd
  cases x with
  | num n => exact ⟨_, reads_digits (.inl rfl) (hd' _) n, ends_number_obj n k⟩
  | nums ns =>
    have hdeep : ∀ ys : List Value, d ≤ depth (.arr ys :: .pair k :: .obj kvs :: st) :=
      fun ys => Nat.le_succ_of_le hd
    have hdone : d ≤ depth (.obj (kvs ++ [(k, (Item.nums ns).value)]) :: st) := hd
    refine ⟨⟨.after, .obj (kvs ++ [(k, (Item.nums ns).value)]) :: st⟩, ?_, ends_after _⟩
    cases ns with
    | nil => exact .cons rfl (hdeep []) (.cons rfl hdone (.nil _))
    | cons n ns =>
      obtain ⟨m, ys, hmore, hys⟩ := reads_moreNums (d := d)
        (.pair k :: .obj kvs :: st) ns n [] (hdeep [])
      have hclose : step ⟨.number m, .arr ys :: .pair k :: .obj kvs :: st⟩ ']'
          = some ⟨.after, .obj (kvs ++ [(k, .arr (ys ++ [.num m]))]) :: st⟩ :=
        ends_number_arr m ys ']' rfl rfl
      rw [hys] at hclose
      have hdigits := reads_digits (d := d)
        (s := ⟨.first, .arr [] :: .pair k :: .obj kvs :: st⟩) (.inr rfl) (hdeep _) n
      exact .cons rfl (hdeep []) ((hdigits.append hmore).append (.cons hclose hdone (.nil _)))

theorem reads_keyText {cs : List Char} : ∀ acc : List Char,
    (∀ c ∈ cs, isPlain c = true) → d ≤ depth st →
    Reads (Deep d) ⟨.keyText acc, st⟩ cs ⟨.keyText (acc ++ cs), st⟩ := by
  induction cs with
  | nil =>
    intro acc _ _
    rw [append_nil]
    exact .nil _
  | cons c cs ih =>
    intro acc hplain hd
    obtain ⟨hc, hcs⟩ := forall_mem_cons.1 hplain
    have hquote : c ≠ '"' := by
      rintro rfl
      cases hc
    have hstep : step ⟨.keyText acc, st⟩ c = some ⟨.keyText (acc ++ [c]), st⟩ := by
      simp [step, hquote, hc]
    have hrest := ih (acc ++ [c]) hcs hd
    rw [append_assoc] at hrest
    exact .cons hstep hd hrest

def StartsKey (s : State) : Prop := s.mode = .firstKey ∨ s.mode = .key

theorem reads_pair {k : Key} {x : Item} {kvs : List (List Char × Value)} (hs : StartsKey s)
    (hstack : s.stack = .obj kvs :: st) (hd : d ≤ depth st + 1) :
    ∃ s', Reads (Deep d) s (dumpsPair k x) s'
      ∧ Ends s' (.obj (kvs ++ [(k.chars, x.value)]) :: st) := by
  obtain ⟨mode, stack⟩ := s
  cases hstack
  have hd' : d ≤ depth (.obj kvs :: st) := hd
  have hopen : step ⟨mode, .obj kvs :: st⟩ '"'
      = some ⟨.keyText [], .obj kvs :: st⟩ := by rcases hs with rfl | rfl <;> rfl
  have hkey := reads_keyText [] (forall_mem_cons.2 ⟨isPlain_of_isLower k.lower, k.plain⟩) hd'
  obtain ⟨s', hitem, hends⟩ := reads_item x k.chars hd
  refine ⟨s', ?_, hends⟩
  have hmiddle : Reads (Deep d) ⟨.keyText k.chars, .obj kvs :: st⟩
      ['"', ':', ' '] ⟨.value, .pair k.chars :: .obj kvs :: st⟩ :=
    .cons rfl hd (.cons rfl hd (.cons rfl hd (.nil _)))
  exact (Reads.cons hopen hd' (hkey.append hmiddle)).append hitem

theorem reads_morePairs {kxs : List (Key × Item)} : ∀ {s : State}
    {kvs : List (List Char × Value)}, Ends s (.obj kvs :: st) →
    d ≤ depth st + 1 → ∃ s', Reads (Deep d) s (morePairs kxs) s'
      ∧ Ends s' (.obj (kvs ++ kxs.map fun kx => (kx.1.chars, kx.2.value)) :: st) := by
  induction kxs with
  | nil =>
    intro s kvs hends _
    rw [map_nil, append_nil]
    exact ⟨s, .nil _, hends⟩
  | cons kx kxs ih =>
    intro s kvs hends hd
    obtain ⟨k, x⟩ := kx
    have hcomma : step s ',' = some ⟨.key, .obj kvs :: st⟩ := hends ',' rfl rfl
    obtain ⟨s₁, hpair, hends₁⟩ := reads_pair (s := ⟨.key, .obj kvs :: st⟩) (.inr rfl) rfl hd
    obtain ⟨s₂, hmore, hends₂⟩ := ih hends₁ hd
    rw [append_assoc] at hends₂
    exact ⟨s₂, .cons hcomma hd (.cons rfl hd (hpair.append hmore)), hends₂⟩

def Record.body (r : Record) : List Char := '{' :: dumpsPair r.head.1 r.head.2 ++ morePairs r.tail

theorem Record.dumps_eq (r : Record) : r.dumps = r.body ++ ['}'] := rfl

/-- Where a value may start, a record is read; until its last brace it keeps
one more object open. -/
theorem reads_record (r : Record) (hs : Starts s) :
    ∃ s', Reads (Deep (depth s.stack + 1)) s r.body s'
      ∧ step s' '}' = complete r.value s.stack := by
  obtain ⟨mode, stack⟩ := s
  have hopen : step ⟨mode, stack⟩ '{' = some ⟨.firstKey, .obj [] :: stack⟩ := by
    rcases hs with rfl | rfl <;> rfl
  obtain ⟨s₁, hpair, hends₁⟩ := reads_pair
    (s := ⟨.firstKey, .obj [] :: stack⟩) (.inl rfl) rfl (Nat.le_refl _)
  obtain ⟨s₂, hmore, hends₂⟩ := reads_morePairs hends₁ (Nat.le_refl _)
  exact ⟨s₂, (Reads.cons hopen (Nat.le_refl (depth stack + 1)) hpair).append hmore,
    hends₂ '}' rfl rfl⟩

end Parts

/-- A record reads back as itself. -/
theorem loads_dumps (r : Record) : loads r.dumps = some r.value := by
  obtain ⟨s, hreads, hclose⟩ := reads_record r (s := ⟨.value, []⟩) (.inl rfl)
  unfold loads
  rw [r.dumps_eq, run_append, hreads.run, bind_some, run_singleton, hclose]
  rfl

def InString (s : State) : Prop := ∃ cs, s.mode = .keyText cs ∨ s.mode = .text cs

def Closed (s : State) : Prop := s.mode = .colon ∨ s.mode = .after ∨ ∃ v, s.mode = .finished v

theorem closed_complete {st : List Frame} (h : complete v st = some s) : Closed s := by
  unfold complete at h
  split at h <;> cases h
  · exact .inr (.inr ⟨v, rfl⟩)
  · exact .inr (.inl rfl)
  · exact .inr (.inl rfl)

theorem next_brace_closed (hs : Closed s) : next s '{' = none := by
  obtain ⟨mode, stack⟩ := s
  rcases hs with rfl | rfl | ⟨v, rfl⟩
  · rfl
  · show follow '{' stack = none
    unfold follow
    split <;> rfl
  · rfl

/-- Where no value may start, an opening brace can only be a part of a
string. -/
theorem step_brace (hs : ¬ Starts s)
    (h : step s '{' = some s') : InString s' ∧ s'.stack = s.stack := by
  obtain ⟨mode, stack⟩ := s
  cases mode with
  | value => exact absurd (.inl rfl) hs
  | first => exact absurd (.inr rfl) hs
  | keyText cs =>
    cases h
    exact ⟨⟨cs ++ ['{'], .inl rfl⟩, rfl⟩
  | text cs =>
    cases h
    exact ⟨⟨cs ++ ['{'], .inr rfl⟩, rfl⟩
  | number n =>
    obtain ⟨s₁, hdone, hnext⟩ := bind_eq_some_iff.1 h
    rw [next_brace_closed (closed_complete hdone)] at hnext
    cases hnext
  | after =>
    have hnone : step ⟨.after, stack⟩ '{' = none :=
      next_brace_closed (s := ⟨.after, stack⟩) (.inr (.inl rfl))
    rw [hnone] at h
    cases h
  | firstKey | key | colon | finished => cases h

theorem step_quote (hs : InString s) (h : step s '"' = some s') :
    Closed s' ∧ depth s'.stack = depth s.stack := by
  obtain ⟨mode, stack⟩ := s
  obtain ⟨cs, rfl | rfl⟩ := hs
  · cases h
    exact ⟨.inl rfl, rfl⟩
  · exact ⟨closed_complete h, depth_complete h⟩

theorem step_lower (hs : Closed s) (hc : c.isLower = true) : step s c = none := by
  obtain ⟨hblank, -, hcolon, hcomma, hbracket, hbrace⟩ := ne_of_isLower hc
  obtain ⟨mode, stack⟩ := s
  rcases hs with rfl | rfl | ⟨v, rfl⟩
  · simp [step, next, hblank, hcolon]
  · have hfollow : step ⟨.after, stack⟩ c = follow c stack := by simp [step, next, hblank]
    rw [hfollow]
    unfold follow
    split
    · rw [if_neg hcomma, if_neg hbracket]
    · rw [if_neg hcomma, if_neg hbrace]
    · rfl
  · simp [step, next, hblank]

theorem run_record_outside (hs : ¬ Starts s) (hu : u <+: r.dumps) (h : run s u = some s') :
    depth s'.stack = depth s.stack := by
  have hdumps : ∃ rest, r.dumps = '{' :: '"' :: r.head.1.head :: rest :=
    ⟨_, rfl⟩
  obtain ⟨rest, hdumps⟩ := hdumps
  cases u with
  | nil =>
    cases h
    rfl
  | cons c₁ u₁ =>
    obtain ⟨rfl, hu₁⟩ := cons_prefix_cons.1 hu
    obtain ⟨s₁, hbrace, h₁⟩ := bind_eq_some_iff.1 h
    obtain ⟨hin, hstack⟩ := step_brace hs hbrace
    rw [← hstack]
    cases u₁ with
    | nil =>
      cases h₁
      rfl
    | cons c₂ u₂ =>
      obtain ⟨rfl, hu₂⟩ := cons_prefix_cons.1 hu₁
      obtain ⟨s₂, hquote, h₂⟩ := bind_eq_some_iff.1 h₁
      obtain ⟨hclosed, hdepth⟩ := step_quote hin hquote
      rw [← hdepth]
      cases u₂ with
      | nil =>
        cases h₂
        rfl
      | cons c₃ u₃ =>
        obtain ⟨rfl, -⟩ := cons_prefix_cons.1 hu₂
        obtain ⟨s₃, hlower, -⟩ := bind_eq_some_iff.1 h₂
        rw [step_lower hclosed r.head.1.lower] at hlower
        cases hlower

/-- Where a value may start, a beginning of a record keeps what was open;
if it is not the whole record, it leaves one more open. -/
theorem run_record_start (hs : Starts s) (hu : u <+: r.dumps) (hne : u ≠ [])
    (h : run s u = some s') : Deep (depth s.stack + 1) s'
      ∨ (u = r.dumps ∧ complete r.value s.stack = some s') := by
  obtain ⟨s₁, hreads, hclose⟩ := reads_record r hs
  rw [r.dumps_eq] at hu ⊢
  rcases prefix_concat_iff.1 hu with rfl | hu
  · rw [run_append, hreads.run, bind_some, run_singleton, hclose] at h
    exact .inr ⟨rfl, h⟩
  · obtain ⟨s₂, hrun, hdeep⟩ := hreads.begins hu hne
    cases hrun.symm.trans h
    exact .inl hdeep

theorem piece_deep (hs : Deep 1 s) (hu : u <+: r.dumps) (h : run s u = some s') : Deep 1 s' := by
  unfold Deep at *
  by_cases hstarts : Starts s
  · by_cases hne : u = []
    · cases hne
      cases h
      exact hs
    · rcases run_record_start hstarts hu hne h with hdeep | ⟨-, hdone⟩
      · exact Nat.le_trans (Nat.le_succ_of_le hs) hdeep
      · rw [depth_complete hdone]
        exact hs
  · rw [run_record_outside hstarts hu h]
    exact hs

theorem pieces_deep {us : List (List Char)} : ∀ {s s' : State},
    Deep 1 s → (∀ u ∈ us, ∃ r : Record, u <+: r.dumps) →
    run s us.flatten = some s' → Deep 1 s' := by
  induction us with
  | nil =>
    intro s s' hs _ h
    cases h
    exact hs
  | cons u us ih =>
    intro s s' hs hus h
    obtain ⟨⟨r, hu⟩, hus⟩ := forall_mem_cons.1 hus
    rw [flatten_cons, run_append] at h
    obtain ⟨s₁, hrun, h⟩ := bind_eq_some_iff.1 h
    exact ih (piece_deep hs hu hrun) hus h

theorem finish_deep (h : Deep 1 s) : finish s = none := by
  obtain ⟨mode, stack⟩ := s
  cases stack with
  | nil => cases h
  | cons f st => cases mode <;> rfl

theorem run_finished (hu : u <+: r.dumps) (h : run ⟨.finished v, []⟩ u = some s) : u = [] := by
  cases u with
  | nil => rfl
  | cons c u =>
    obtain ⟨rfl, -⟩ := cons_prefix_cons.1 hu
    cases h

theorem run_finished_pieces {us : List (List Char)} : (∀ u ∈ us, ∃ r : Record, u <+: r.dumps) →
    run ⟨.finished v, []⟩ us.flatten = some s →
    us.filter (· ≠ []) = [] ∧ s = ⟨.finished v, []⟩ := by
  induction us with
  | nil =>
    intro _ h
    cases h
    exact ⟨rfl, rfl⟩
  | cons u us ih =>
    intro hus h
    obtain ⟨⟨r, hu⟩, hrest⟩ := forall_mem_cons.1 hus
    rw [flatten_cons, run_append] at h
    obtain ⟨s₁, hrun, h⟩ := bind_eq_some_iff.1 h
    obtain rfl := run_finished hu hrun
    cases hrun
    exact ih hrest h

theorem loads_pieces {us : List (List Char)} : (∀ u ∈ us, ∃ r : Record, u <+: r.dumps) →
    loads us.flatten = some v → ∃ r : Record, us.filter (· ≠ []) = [r.dumps] ∧ v = r.value := by
  induction us with
  | nil =>
    intro _ h
    cases h
  | cons u us ih =>
    intro hus h
    obtain ⟨⟨r, hu⟩, hrest⟩ := forall_mem_cons.1 hus
    by_cases hne : u = []
    · subst hne
      exact ih hrest h
    unfold loads at h
    rw [flatten_cons, run_append] at h
    obtain ⟨s, h, hfinish⟩ := bind_eq_some_iff.1 h
    obtain ⟨s₁, hrun, h⟩ := bind_eq_some_iff.1 h
    rcases run_record_start (.inl rfl) hu hne hrun with hdeep | ⟨rfl, hdone⟩
    · -- The first piece is torn: an object stays open to the end.
      rw [finish_deep (pieces_deep hdeep hrest h)] at hfinish
      cases hfinish
    · cases hdone
      obtain ⟨hnone, rfl⟩ := run_finished_pieces hrest h
      cases hfinish
      refine ⟨r, ?_, rfl⟩
      rw [filter_cons_of_pos (by simp [hne]), hnone]

theorem dumps_eq_of_begins {r r' : Record} (h : r.dumps <+: r'.dumps) : r.dumps = r'.dumps := by
  have hloads := loads_dumps r
  obtain ⟨s, hrun, hfinish⟩ := bind_eq_some_iff.1 hloads
  have hne : r.dumps ≠ [] := cons_ne_nil _ _
  rcases run_record_start (s := ⟨.value, []⟩) (.inl rfl) h hne hrun with hdeep | ⟨heq, -⟩
  · rw [finish_deep hdeep] at hfinish
    cases hfinish
  · exact heq

theorem le_of_all {l : List Char} (h : l.all (decide <| ' ' ≤ ·) = true) :
    ∀ c ∈ l, ' ' ≤ c := fun c hc =>
  of_decide_eq_true (all_eq_true.1 h c hc)

theorem le_of_isDigit (h : c.isDigit = true) : ' ' ≤ c := by
  simp only [Char.isDigit, Bool.and_eq_true, decide_eq_true_eq] at h
  exact UInt32.le_trans (by decide) h.1

theorem le_of_isPlain (h : isPlain c = true) : ' ' ≤ c := by
  simp only [isPlain, Bool.and_eq_true, decide_eq_true_eq] at h
  exact h.1.1

theorem le_digits {n : Nat} : ∀ c ∈ digits n, ' ' ≤ c := fun _ hc =>
  le_of_isDigit (Nat.isDigit_of_mem_toDigits (by decide) (by decide) hc)

theorem le_moreNums {ns : List Nat} : ∀ c ∈ moreNums ns, ' ' ≤ c := by
  induction ns with
  | nil => nofun
  | cons n ns ih =>
    refine forall_mem_cons.2 ⟨by decide, ?_⟩
    refine forall_mem_cons.2 ⟨by decide, ?_⟩
    exact forall_mem_append.2 ⟨le_digits, ih⟩

theorem le_item {x : Item} : ∀ c ∈ x.dumps, ' ' ≤ c := by
  cases x with
  | num n => exact le_digits
  | nums ns =>
    cases ns with
    | nil => exact le_of_all (by decide)
    | cons n ns =>
      have hopen : ∀ c ∈ '[' :: digits n, ' ' ≤ c := forall_mem_cons.2 ⟨by decide, le_digits⟩
      refine forall_mem_append.2 ⟨?_, le_of_all (by decide)⟩
      exact forall_mem_append.2 ⟨hopen, le_moreNums⟩

theorem le_pair {k : Key} {x : Item} : ∀ c ∈ dumpsPair k x, ' ' ≤ c := by
  have hkey : ∀ c ∈ k.chars, ' ' ≤ c := forall_mem_cons.2
    ⟨le_of_isPlain (isPlain_of_isLower k.lower), fun c hc => le_of_isPlain (k.plain c hc)⟩
  have hquote : ∀ c ∈ '"' :: k.chars, ' ' ≤ c :=
    forall_mem_cons.2 ⟨by decide, hkey⟩
  refine forall_mem_append.2 ⟨?_, le_item⟩
  exact forall_mem_append.2 ⟨hquote, le_of_all (by decide)⟩

theorem le_morePairs {kxs : List (Key × Item)} : ∀ c ∈ morePairs kxs, ' ' ≤ c := by
  induction kxs with
  | nil => nofun
  | cons kx kxs ih =>
    refine forall_mem_cons.2 ⟨by decide, ?_⟩
    refine forall_mem_cons.2 ⟨by decide, ?_⟩
    exact forall_mem_append.2 ⟨le_pair, ih⟩

/-- A record has no control characters: it is one line. -/
theorem Record.le_dumps (r : Record) : ∀ c ∈ r.dumps, ' ' ≤ c := by
  have hopen : ∀ c ∈ '{' :: dumpsPair r.head.1 r.head.2, ' ' ≤ c :=
    forall_mem_cons.2 ⟨by decide, le_pair⟩
  refine forall_mem_append.2 ⟨?_, le_of_all (by decide)⟩
  exact forall_mem_append.2 ⟨hopen, le_morePairs⟩

end Lib.Json
