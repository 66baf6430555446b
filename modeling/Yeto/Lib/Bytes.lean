/-
Little-endian words and a byte reader.

`Reads p bytes a` says that `p` takes exactly `bytes` off any input and yields
`a`; the round trip of a record is one rule per field. `Bounded p k` is the
other direction: a read that succeeds took at most `k` bytes.
-/
import Mathlib.Data.List.Basic
import Mathlib.Tactic.Ring
import Yeto.Lib.Guards

namespace Lib

open List

/-- The `n` low bytes of `v`, least significant first. -/
def le : Nat → Nat → List UInt8
  | 0, _ => []
  | n + 1, v => UInt8.ofNat v :: le n (v / 256)

/-- The number a list of little-endian bytes stands for. -/
def ofLe : List UInt8 → Nat
  | [] => 0
  | b :: bs => b.toNat + 256 * ofLe bs

@[simp] theorem length_le (n : Nat) : ∀ v, (le n v).length = n := by
  induction n with
  | zero => intro v; rfl
  | succ n ih => intro v; rw [le, length_cons, ih]

theorem ofLe_le (n : Nat) : ∀ v : Nat, ofLe (le n v) = v % 256 ^ n := by
  induction n with
  | zero => intro v; rw [pow_zero, Nat.mod_one]; rfl
  | succ n ih =>
    intro v
    have hpow : 256 ^ (n + 1) = 256 * 256 ^ n := by ring
    rw [le, ofLe, ih, hpow, Nat.mod_mul]
    rfl

theorem ofLe_le_of_lt {n v : Nat} (h : v < 256 ^ n) : ofLe (le n v) = v := by
  rw [ofLe_le, Nat.mod_eq_of_lt h]

theorem ofLe_lt : ∀ bs : List UInt8, ofLe bs < 256 ^ bs.length
  | [] => by decide
  | b :: bs => by
    have hb := b.toNat_lt
    have hbs := ofLe_lt bs
    unfold ofLe
    rw [length_cons, Nat.pow_succ]
    omega

theorem le_mod (n : Nat) : ∀ v : Nat, le n (v % 256 ^ n) = le n v := by
  induction n with
  | zero => intro v; rfl
  | succ n ih =>
    intro v
    have hpow : 256 ^ (n + 1) = 256 * 256 ^ n := by ring
    have hlow : UInt8.ofNat (v % 256 ^ (n + 1)) = UInt8.ofNat v := by
      refine UInt8.toNat_inj.1 ?_
      rw [UInt8.toNat_ofNat', UInt8.toNat_ofNat', hpow]
      exact Nat.mod_mul_right_mod v 256 (256 ^ n)
    rw [le, le, hlow, hpow, Nat.mod_mul_right_div_self, ih]

/-- A read: take a value off the front of the input, or fail with a
message. -/
def Reader (α : Type) : Type := List UInt8 → Except String (α × List UInt8)

namespace Reader

variable {α β : Type} {s s' : List UInt8} {m : String} {f : α → Reader β}

instance : Monad Reader where
  pure a := fun s => .ok (a, s)
  bind p f := fun s =>
    match p s with
    | .ok (a, s') => f a s'
    | .error m => .error m

def ensure (c : Prop) [Decidable c] (message : String) : Reader Unit :=
  fun s => if c then .ok ((), s) else .error message

def rest : Reader (List UInt8) := fun s => .ok (s, s)

def take (message : String) (n : Nat) : Reader (List UInt8) := fun s =>
  if s.length ≥ n then .ok (s.take n, s.drop n) else .error message

def word (message : String) (n : Nat) : Reader Nat := fun s =>
  match take message n s with
  | .ok (bs, s') => .ok (ofLe bs, s')
  | .error m => .error m

def fin (message : String) (n : Nat) : Reader (Fin (256 ^ n)) := fun s =>
  match word message n s with
  | .ok (v, s') => .ok (Fin.ofNat (256 ^ n) v, s')
  | .error m => .error m

def many (p : Reader α) : Nat → Reader (List α)
  | 0 => fun s => .ok ([], s)
  | n + 1 => fun s =>
    match p s with
    | .error m => .error m
    | .ok (a, s') =>
      match many p n s' with
      | .error m => .error m
      | .ok (as, s'') => .ok (a :: as, s'')

def ofExcept : Except String α → Reader α
  | .ok a => fun s => .ok (a, s)
  | .error m => fun _ => .error m

theorem bind_ok {p : Reader α} {a : α} (h : p s = .ok (a, s')) : (p >>= f) s = f a s' := by
  show (match p s with
    | .ok (a, s') => f a s'
    | .error m => .error m) = f a s'
  rw [h]

theorem bind_error {p : Reader α} (h : p s = .error m) : (p >>= f) s = .error m := by
  show (match p s with
    | .ok (a, s') => f a s'
    | .error m => .error m) = .error m
  rw [h]

theorem bind_eq_ok {p : Reader α} {s s'' : List UInt8} {b : β} (h : (p >>= f) s = .ok (b, s'')) :
    ∃ a s', p s = .ok (a, s') ∧ f a s' = .ok (b, s'') := by
  cases hp : p s with
  | error m => rw [bind_error hp] at h; cases h
  | ok r =>
    obtain ⟨a, s'⟩ := r
    rw [bind_ok hp] at h
    exact ⟨a, s', rfl, h⟩

/-- A counted list is its first entry and the others. -/
theorem many_succ (p : Reader α) (n : Nat) :
    many p (n + 1) = p >>= fun a => many p n >>= fun as => pure (a :: as) := by
  funext s
  rw [many]
  dsimp only
  cases hp : p s with
  | error m => exact (bind_error hp).symm
  | ok r =>
    refine Eq.trans ?_ (bind_ok (a := r.1) hp).symm
    dsimp only
    cases hmany : many p n r.2 with
    | error m => exact (bind_error hmany).symm
    | ok r =>
      rw [bind_ok (a := r.1) hmany]
      rfl

theorem take_ok {n : Nat} {s s' bs : List UInt8} (h : take m n s = .ok (bs, s')) :
    bs = s.take n ∧ s' = s.drop n ∧ bs.length = n := by
  obtain ⟨hlen, ⟨⟩⟩ := of_else_error h
  exact ⟨rfl, rfl, length_take_of_le hlen⟩

theorem word_ok {n v : Nat} (h : word m n s = .ok (v, s')) :
    v = ofLe (s.take n) ∧ s' = s.drop n := by
  unfold word at h
  split at h
  · next bs s₁ htake =>
    obtain ⟨rfl, rfl, -⟩ := take_ok htake
    cases h
    exact ⟨rfl, rfl⟩
  · cases h

theorem fin_ok {n : Nat} {v : Fin (256 ^ n)} (h : fin m n s = .ok (v, s')) :
    v.val = ofLe (s.take n) ∧ s' = s.drop n := by
  unfold fin at h
  split at h
  · next w s₁ hword =>
    obtain ⟨rfl, rfl⟩ := word_ok hword
    cases h
    refine ⟨Nat.mod_eq_of_lt ?_, rfl⟩
    refine lt_of_lt_of_le (ofLe_lt _) (Nat.pow_le_pow_right (by decide) ?_)
    exact length_take_le ..
  · cases h

theorem ensure_ok {c : Prop} {_ : Decidable c}
    {u : Unit} (h : ensure c m s = .ok (u, s')) : c ∧ s' = s := by
  obtain ⟨hc, ⟨⟩⟩ := of_else_error h
  exact ⟨hc, rfl⟩

theorem pure_ok {a b : α} (h : (pure a : Reader α) s = .ok (b, s')) : b = a ∧ s' = s := by
  cases h
  exact ⟨rfl, rfl⟩

theorem ofExcept_ok {e : Except String α} {a : α} (h : ofExcept e s = .ok (a, s')) :
    e = .ok a ∧ s' = s := by
  cases e with
  | error m => cases h
  | ok b =>
    cases h
    exact ⟨rfl, rfl⟩

end Reader

/-- `p` takes exactly `bytes` off the front of any input, and yields `a`. -/
def Reads {α : Type} (p : Reader α) (bytes : List UInt8) (a : α) : Prop :=
  ∀ rest, p (bytes ++ rest) = .ok (a, rest)

namespace Reads

variable {α β : Type} {f : α → Reader β} {p : Reader α} {bs : List UInt8} {a : α}

theorem pure (a : α) : Reads (pure a : Reader α) [] a := fun _ => rfl

theorem bind {b₁ b₂ : List UInt8} {b : β} (hp : Reads p b₁ a) (hf : Reads (f a) b₂ b) :
    Reads (p >>= f) (b₁ ++ b₂) b := by
  intro rest
  rw [append_assoc, Reader.bind_ok (hp (b₂ ++ rest))]
  exact hf rest

theorem bind_eq (hp : Reads p bs a) (rest : List UInt8) : (p >>= f) (bs ++ rest) = f a rest :=
  Reader.bind_ok (hp rest)

theorem bind_nil_eq (hp : Reads p [] a) (s : List UInt8) : (p >>= f) s = f a s :=
  Reader.bind_ok (hp s)

theorem bind_nil {b : β} (hp : Reads p [] a) (hf : Reads (f a) bs b) : Reads (p >>= f) bs b :=
  bind hp hf

theorem bind_end {b : β} (hp : Reads p bs a) (hf : Reads (f a) [] b) : Reads (p >>= f) bs b := by
  rw [← append_nil bs]
  exact hp.bind hf

theorem ensure {c : Prop} [Decidable c] (m : String) (h : c) : Reads (Reader.ensure c m) [] () := by
  intro rest
  show (if c then _ else _) = _
  rw [if_pos h]
  rfl

theorem take (m : String) {n : Nat} (h : bs.length = n) : Reads (Reader.take m n) bs bs := by
  subst h
  intro rest
  unfold Reader.take
  rw [if_pos (by rw [length_append]; omega), take_left, drop_left]

theorem word_mod (m : String) (n v : Nat) : Reads (Reader.word m n) (le n v) (v % 256 ^ n) := by
  intro rest
  unfold Reader.word
  rw [Reads.take m (length_le n v) rest]
  show Except.ok (ofLe (le n v), rest) = _
  rw [ofLe_le]

theorem word (m : String) {n v : Nat} (h : v < 256 ^ n) : Reads (Reader.word m n) (le n v) v := by
  have hread := word_mod m n v
  rwa [Nat.mod_eq_of_lt h] at hread

theorem fin (m : String) {n : Nat} (v : Fin (256 ^ n)) : Reads (Reader.fin m n) (le n v) v := by
  intro rest
  unfold Reader.fin
  rw [word m v.isLt rest]
  exact congrArg (fun x => Except.ok (x, rest)) (Fin.ofNat_val_eq_self v)

theorem ofExcept {e : Except String α} (h : e = .ok a) : Reads (Reader.ofExcept e) [] a := by
  subst h
  exact fun _ => rfl

theorem many {enc : β → List UInt8} {f : β → α} {xs : List β} : (∀ x ∈ xs, Reads p (enc x) (f x)) →
      Reads (Reader.many p xs.length) (xs.flatMap enc) (xs.map f) := by
  induction xs with
  | nil => intro _ rest; rfl
  | cons x xs ih =>
    intro h rest
    obtain ⟨hx, hxs⟩ := forall_mem_cons.1 h
    rw [flatMap_cons, append_assoc, length_cons, Reader.many]
    simp only [hx (xs.flatMap enc ++ rest), ih hxs rest, map_cons]

end Reads

/-- A successful `p` took at most `k` bytes. -/
def Bounded {α : Type} (p : Reader α) (k : Nat) : Prop :=
  ∀ s a s', p s = .ok (a, s') → s.length ≤ s'.length + k

namespace Bounded

variable {α β : Type}

theorem pure (a : α) : Bounded (pure a : Reader α) 0 := by
  intro s b s' h
  cases h
  exact le_rfl

theorem bind {p : Reader α} {f : α → Reader β} {k l : Nat}
    (hp : Bounded p k) (hf : ∀ a, Bounded (f a) l) : Bounded (p >>= f) (k + l) := by
  intro s b s'' h
  obtain ⟨a, s', h1, h2⟩ := Reader.bind_eq_ok h
  have := hp s a s' h1
  have := hf a s' b s'' h2
  omega

theorem ensure (c : Prop) [Decidable c] (m : String) : Bounded (Reader.ensure c m) 0 := by
  intro s a s' h
  obtain ⟨-, h⟩ := of_else_error h
  cases h; exact le_rfl

theorem word (m : String) (n : Nat) : Bounded (Reader.word m n) n := by
  intro s a s' h
  obtain ⟨-, rfl⟩ := Reader.word_ok h
  rw [length_drop]
  omega

theorem many {p : Reader α} {k : Nat} (hp : Bounded p k) (n : Nat) :
    Bounded (Reader.many p n) (n * k) := by
  induction n with
  | zero =>
    rw [Nat.zero_mul]
    exact pure []
  | succ n ih =>
    rw [Reader.many_succ, Nat.succ_mul, Nat.add_comm]
    exact hp.bind fun _ => ih.bind fun _ => pure _

end Bounded

/-- What `p` reads it reads in front of more, and leaves that. -/
def Extends {α : Type} (p : Reader α) : Prop :=
  ∀ s a s', p s = .ok (a, s') → ∀ more, p (s ++ more) = .ok (a, s' ++ more)

namespace Extends

variable {α β : Type}

theorem pure (a : α) : Extends (pure a : Reader α) := by
  rintro s _ _ ⟨⟩ more
  rfl

theorem fail (m : String) : Extends (fun _ => .error m : Reader α) := nofun

theorem bind {p : Reader α} {f : α → Reader β} (hp : Extends p)
    (hf : ∀ a, Extends (f a)) : Extends (p >>= f) := by
  intro s b s' h more
  obtain ⟨a, s₁, hpa, hfa⟩ := Reader.bind_eq_ok h
  rw [Reader.bind_ok (hp s a s₁ hpa more)]
  exact hf a s₁ b s' hfa more

theorem ite {c : Prop} [Decidable c] {p q : Reader α} (hp : Extends p)
    (hq : Extends q) : Extends (if c then p else q) := by
  split
  · exact hp
  · exact hq

theorem ensure (c : Prop) [Decidable c] (m : String) : Extends (Reader.ensure c m) := by
  intro s u s' h more
  obtain ⟨hc, rfl⟩ := Reader.ensure_ok h
  exact if_pos hc

theorem ofExcept (e : Except String α) : Extends (Reader.ofExcept e) := by
  intro s a s' h more
  obtain ⟨rfl, rfl⟩ := Reader.ofExcept_ok h
  rfl

theorem take (m : String) (n : Nat) : Extends (Reader.take m n) := by
  intro s bs s' h more
  obtain ⟨rfl, rfl, hlen⟩ := Reader.take_ok h
  have hn : n ≤ s.length := by
    rw [length_take] at hlen
    omega
  unfold Reader.take
  rw [if_pos (by rw [length_append]; omega), take_append_of_le_length hn,
    drop_append_of_le_length hn]

theorem word (m : String) (n : Nat) : Extends (Reader.word m n) := by
  intro s v s' h more
  unfold Reader.word at h
  split at h
  · next bs s₁ htake =>
    cases h
    unfold Reader.word
    rw [take m n s bs _ htake more]
  · cases h

theorem fin (m : String) (n : Nat) : Extends (Reader.fin m n) := by
  intro s v s' h more
  unfold Reader.fin at h
  split at h
  · next w s₁ hword =>
    cases h
    unfold Reader.fin
    rw [word m n s w _ hword more]
  · cases h

theorem many {p : Reader α} (hp : Extends p) (n : Nat) : Extends (Reader.many p n) := by
  induction n with
  | zero => exact pure []
  | succ n ih =>
    rw [Reader.many_succ]
    exact hp.bind fun _ => ih.bind fun _ => pure _

end Extends

/-- `p` reads any `k` bytes, and takes them. -/
structure Sized {α : Type} (p : Reader α) (k : Nat) : Prop where
  reads : ∀ s, k ≤ s.length → ∃ a, p s = .ok (a, s.drop k)
  rest : ∀ s a s', p s = .ok (a, s') → s' = s.drop k

namespace Sized

variable {α β : Type} {p : Reader α} {k l : Nat}

theorem pure (a : α) : Sized (pure a : Reader α) 0 where
  reads _ _ := ⟨a, rfl⟩
  rest _ _ _ h := (Reader.pure_ok h).2

theorem bind {f : α → Reader β} (hp : Sized p k) (hf : ∀ a, Sized (f a) l) :
    Sized (p >>= f) (k + l) := by
  constructor
  · intro s hs
    obtain ⟨a, ha⟩ := hp.reads s (by omega)
    obtain ⟨b, hb⟩ := (hf a).reads (s.drop k) (by rw [length_drop]; omega)
    exact ⟨b, by rw [Reader.bind_ok ha, hb, drop_drop]⟩
  · intro s b s'' h
    obtain ⟨a, s', ha, hb⟩ := Reader.bind_eq_ok h
    rw [(hf a).rest s' b s'' hb, hp.rest s a s' ha, drop_drop]

theorem fin (m : String) (n : Nat) : Sized (Reader.fin m n) n where
  reads s hs := by
    unfold Reader.fin Reader.word Reader.take
    rw [if_pos hs]
    exact ⟨_, rfl⟩
  rest _ _ _ h := (Reader.fin_ok h).2

theorem many (hp : Sized p k) (n : Nat) : Sized (Reader.many p n) (k * n) := by
  induction n with
  | zero => exact pure []
  | succ n ih =>
    rw [Reader.many_succ, Nat.mul_succ, Nat.add_comm]
    exact hp.bind fun _ => ih.bind fun _ => pure _

end Sized

end Lib
