import Mathlib

/-! The order of binary floating point patterns.

Without its sign a pattern is read as a number, exponent bits above `m` fraction bits. The value it
stands for grows with that number, across the step from subnormal to normal and from one
exponent to the next, so two formats order alike what one converts exactly into the other. -/
namespace ColumnarStore.Foundation.Floats

/-- The value of a pattern without sign, in units of its format's least subnormal. -/
def units (m magnitude : Nat) : Nat :=
  if magnitude / 2 ^ m = 0 then magnitude
  else (2 ^ m + magnitude % 2 ^ m) * 2 ^ (magnitude / 2 ^ m - 1)

@[simp] theorem units_subnormal {m fraction : Nat} (h : fraction < 2 ^ m) : units m fraction = fraction := by
  rw [units, if_pos (Nat.div_eq_of_lt h)]

theorem units_normal {m fraction : Nat} (exponent : Nat) (h : fraction < 2 ^ m) :
    units m ((exponent + 1) * 2 ^ m + fraction) = (2 ^ m + fraction) * 2 ^ exponent := by
  have hdiv : ((exponent + 1) * 2 ^ m + fraction) / 2 ^ m = exponent + 1 := by
    rw [Nat.mul_comm, Nat.mul_add_div (Nat.two_pow_pos m), Nat.div_eq_of_lt h, Nat.add_zero]
  have hmod : ((exponent + 1) * 2 ^ m + fraction) % 2 ^ m = fraction := by
    rw [Nat.mul_comm, Nat.mul_add_mod, Nat.mod_eq_of_lt h]
  rw [units, hdiv, hmod, if_neg (Nat.succ_ne_zero exponent), Nat.add_sub_cancel]

/-- The next pattern stands for more: within an exponent by one unit of it, at its end the
fraction starts again with twice the unit. -/
theorem units_lt_succ (m k : Nat) : units m k < units m (k + 1) := by
  have hpos := Nat.two_pow_pos m
  have hsplit := Nat.div_add_mod k (2 ^ m)
  have hfraction := Nat.mod_lt k hpos
  generalize k % 2 ^ m = fraction at hsplit hfraction
  generalize k / 2 ^ m = exponent at hsplit
  subst hsplit
  rw [Nat.mul_comm]
  cases exponent with
  | zero =>
    rw [Nat.zero_mul, Nat.zero_add, units_subnormal hfraction]
    rcases Nat.lt_or_ge (fraction + 1) (2 ^ m) with hsame | hnext
    · rw [units_subnormal hsame]
      exact Nat.lt_succ_self fraction
    · have h := units_normal 0 hpos
      rw [Nat.zero_add, Nat.one_mul, Nat.add_zero, Nat.pow_zero, Nat.mul_one] at h
      rw [show fraction + 1 = 2 ^ m by omega, h]
      exact hfraction
  | succ exponent =>
    rw [units_normal _ hfraction]
    rcases Nat.lt_or_ge (fraction + 1) (2 ^ m) with hsame | hnext
    · rw [Nat.add_assoc, units_normal _ hsame]
      exact Nat.mul_lt_mul_of_pos_right (by omega) (Nat.two_pow_pos exponent)
    · have h := units_normal (exponent + 1) hpos
      have hcarry : (exponent + 1) * 2 ^ m + fraction + 1 = (exponent + 1 + 1) * 2 ^ m + 0 := by
        rw [Nat.add_one_mul (exponent + 1)]
        omega
      rw [hcarry, h, Nat.add_zero, Nat.pow_succ, Nat.mul_comm _ 2, ← Nat.mul_assoc]
      exact Nat.mul_lt_mul_of_pos_right (by omega) (Nat.two_pow_pos exponent)

theorem units_strictMono (m : Nat) : StrictMono (units m) := strictMono_nat_of_lt_succ (units_lt_succ m)

/-- A pattern without sign, and its sign: the order of the signed numbers is that of the magnitudes. -/
theorem signed_lt_iff {a b a' b' : Nat} (hlt : a < b ↔ a' < b') (hgt : b < a ↔ b' < a') (ha : a = 0 ↔ a' = 0)
    (hb : b = 0 ↔ b' = 0) (p q : Prop) [Decidable p] [Decidable q] :
    (if p then (a : Int) else -a) < (if q then (b : Int) else -b) ↔
      (if p then (a' : Int) else -a') < (if q then (b' : Int) else -b') := by
  split <;> split <;> omega

end ColumnarStore.Foundation.Floats
