/-
Magnitudes of IEEE 754 binary32 numbers, and the rounding of an exact
magnitude to one.

The least positive binary32 is `2^-149`, so the magnitude of every finite
one is a natural number of that unit (`mag`). An exact result may be finer:
`round j n` is the binary32 nearest to `n * 2^-(149 + j)`, ties to even, as
its 31 bits below the sign. It is finite exactly below `2^128 - 2^103`, half
a unit above the largest finite number (`round_lt_infinity_iff`).
-/
import Mathlib.Data.Nat.Log
import Mathlib.Tactic.Linarith
import Mathlib.Tactic.Positivity
import Mathlib.Tactic.Ring

namespace Lib.Binary32

def infinity : Nat := 255 * 2 ^ 23

/-- The magnitude of the number with these bits, in units of `2^-149`. -/
def mag (bits : Nat) : Nat :=
  let exponent := bits / 2 ^ 23 % 256
  let fraction := bits % 2 ^ 23
  if exponent = 0 then fraction else (2 ^ 23 + fraction) * 2 ^ (exponent - 1)

/-- `n / 2^k` rounded to the nearest integer, ties to even. -/
def shiftRight (n k : Nat) : Nat :=
  let q := n / 2 ^ k
  let r := n % 2 ^ k
  if 2 * r < 2 ^ k then q else if 2 ^ k < 2 * r then q + 1 else q + q % 2

/-- The bits of `n * 2^-(149 + j)`, rounded to the nearest number. -/
def round (j n : Nat) : Nat :=
  -- A significand has 24 bits; below the normal numbers the unit is fixed.
  let k := max (n.log2 - 23) j
  min ((k - j) * 2 ^ 23 + shiftRight n k) infinity

/-- `2^128 - 2^103`, in units of `2^-(149 + j)`. -/
def limit (j : Nat) : Nat := (2 ^ 277 - 2 ^ 252) * 2 ^ j

theorem shiftRight_le (n k : Nat) : shiftRight n k ≤ n / 2 ^ k + 1 := by
  dsimp only [shiftRight]
  repeat' split
  all_goals omega

theorem le_shiftRight (n k : Nat) : n / 2 ^ k ≤ shiftRight n k := by
  dsimp only [shiftRight]
  repeat' split
  all_goals omega

theorem shiftRight_lt_iff (n k b : Nat) :
    shiftRight n k < 2 * b ↔ 2 * n + 2 ^ k < 4 * b * 2 ^ k := by
  have hn := Nat.div_add_mod n (2 ^ k)
  have hr : n % 2 ^ k < 2 ^ k := Nat.mod_lt _ (by positivity)
  dsimp only [shiftRight]
  generalize n / 2 ^ k = q at *
  generalize n % 2 ^ k = r at *
  generalize 2 ^ k = u at *
  -- `n = u * q + r`: compare `q` with the bound.
  rcases Nat.lt_trichotomy (q + 1) (2 * b) with hlt | heq | hgt
  · have hmul : u * (q + 2) ≤ u * (2 * b) := Nat.mul_le_mul_left u hlt
    constructor <;> intro _
    · nlinarith
    · repeat' split
      all_goals omega
  · have hmul : u * (q + 1) = u * (2 * b) := by rw [heq]
    have hodd : q % 2 = 1 := by omega
    constructor <;> intro h
    · repeat' split at h
      · nlinarith
      · omega
      · omega
    · have hhalf : 2 * r < u := by nlinarith
      rw [if_pos hhalf]
      omega
  · have hmul : u * (2 * b) ≤ u * q := Nat.mul_le_mul_left u (by omega)
    constructor <;> intro h
    · repeat' split at h
      all_goals omega
    · nlinarith

theorem round_le_infinity (j n : Nat) : round j n ≤ infinity := min_le_right _ _

theorem lt_unit (j n : Nat) : n < 2 ^ 24 * 2 ^ max (n.log2 - 23) j := by
  have hlog : n < 2 ^ (n.log2 + 1) := Nat.lt_log2_self
  have hpow : 2 ^ (n.log2 + 1) ≤ 2 ^ (24 + max (n.log2 - 23) j) :=
    Nat.pow_le_pow_right (by decide) (by omega)
  rw [← Nat.pow_add]
  exact hlog.trans_le hpow

theorem unit_le {j n : Nat} (h : j < max (n.log2 - 23) j) :
    2 ^ 23 * 2 ^ max (n.log2 - 23) j ≤ n := by
  have hn : n ≠ 0 := by
    rintro rfl
    simp at h
  have hlog : 2 ^ n.log2 ≤ n := Nat.log2_self_le hn
  rw [← Nat.pow_add, show 23 + max (n.log2 - 23) j = n.log2 by omega]
  exact hlog

theorem round_lt_infinity_iff (j n : Nat) : round j n < infinity ↔ n < limit j := by
  have hlt := lt_unit j n
  have hle := @unit_le j n
  dsimp only [round]
  have hj : j ≤ max (n.log2 - 23) j := le_max_right _ _
  generalize max (n.log2 - 23) j = k at *
  obtain ⟨d, rfl⟩ := Nat.exists_eq_add_of_le hj
  have hcancel : j + d - j = d := by omega
  have hu : 0 < 2 ^ j := by positivity
  rw [min_lt_iff, hcancel]
  simp only [lt_irrefl, or_false]
  rw [Nat.pow_add] at hlt hle
  unfold infinity limit
  -- `d` is the exponent: below the last binade, in it, or above it.
  rcases Nat.lt_trichotomy d 253 with hd | rfl | hd
  · have hpow : 2 ^ d ≤ 2 ^ 252 := Nat.pow_le_pow_right (by decide) (by omega)
    have hq : n / 2 ^ (j + d) < 2 ^ 24 := Nat.div_lt_of_lt_mul (by rw [Nat.pow_add]; linarith)
    have hshift := shiftRight_le n (j + d)
    constructor <;> intro _
    · have hmul : 2 ^ j * 2 ^ d ≤ 2 ^ j * 2 ^ 252 := Nat.mul_le_mul_left _ hpow
      omega
    · omega
  · have hiff := shiftRight_lt_iff n (j + 253) (2 ^ 23)
    rw [Nat.pow_add] at hiff
    constructor <;> intro h
    · have := hiff.1 (by omega)
      omega
    · have := hiff.2 (by omega)
      omega
  · have hpow : 2 ^ 254 ≤ 2 ^ d := Nat.pow_le_pow_right (by decide) (by omega)
    have hn := hle (by omega)
    have hq : 2 ^ 23 ≤ n / 2 ^ (j + d) := by
      rw [Nat.le_div_iff_mul_le (by positivity), Nat.pow_add]
      exact hn
    have hshift := le_shiftRight n (j + d)
    have hmul : 2 ^ j * 2 ^ 254 ≤ 2 ^ j * 2 ^ d := Nat.mul_le_mul_left _ hpow
    constructor <;> intro h
    · omega
    · omega

theorem mag_lt_limit_iff (bits : Nat) : mag bits < limit 0 ↔ bits / 2 ^ 23 % 256 ≠ 255 := by
  have hf : bits % 2 ^ 23 < 2 ^ 23 := Nat.mod_lt _ (by decide)
  have he : bits / 2 ^ 23 % 256 < 256 := Nat.mod_lt _ (by decide)
  unfold mag limit
  dsimp only
  generalize bits / 2 ^ 23 % 256 = e at *
  generalize bits % 2 ^ 23 = f at *
  split
  · omega
  next hzero =>
  constructor
  · rintro hlt rfl
    have hmul : 2 ^ 23 * 2 ^ 254 ≤ (2 ^ 23 + f) * 2 ^ 254 := Nat.mul_le_mul_right _ (by omega)
    omega
  · intro hne
    have hpow : 2 ^ (e - 1) ≤ 2 ^ 253 := Nat.pow_le_pow_right (by decide) (by omega)
    have hmul : (2 ^ 23 + f) * 2 ^ (e - 1) ≤ (2 ^ 24 - 1) * 2 ^ 253 :=
      Nat.mul_le_mul (by omega) hpow
    omega

end Lib.Binary32
