import Mathlib

/-! Signed arithmetic that is checked.

A machine word is subtracted, added or shifted as usual where the result is exact, and
the operation faults where it is not. On the words where no operation faults, checked
arithmetic is wrapping arithmetic; the rules here say when that is, for a word and the
distance to it from a lesser one. -/
namespace ColumnarStore.Foundation
variable {ε : Type*} (e : ε) {w : Nat}

/-- `x - y`, if `w` bits hold it. -/
def checkedSub (x y : BitVec w) : Except ε (BitVec w) :=
  if x.ssubOverflow y then .error e else .ok (x - y)

/-- `x + y`, if `w` bits hold it. -/
def checkedAdd (x y : BitVec w) : Except ε (BitVec w) :=
  if x.saddOverflow y then .error e else .ok (x + y)

/-- `x << n`, if `n` is less than the width. -/
def checkedShiftLeft (x : BitVec w) (n : Nat) : Except ε (BitVec w) :=
  if w ≤ n then .error e else .ok (x <<< n)

/-- `x >> n`, if `n` is less than the width. -/
def checkedShiftRight (x : BitVec w) (n : Nat) : Except ε (BitVec w) :=
  if w ≤ n then .error e else .ok (x >>> n)

theorem ssubOverflow_eq_false_iff {x y : BitVec w} :
    x.ssubOverflow y = false ↔
      -2 ^ (w - 1) ≤ x.toInt - y.toInt ∧ x.toInt - y.toInt < 2 ^ (w - 1) := by
  simp only [BitVec.ssubOverflow, Bool.or_eq_false_iff, decide_eq_false_iff_not, not_le, not_lt, ge_iff_le]
  exact and_comm

theorem saddOverflow_eq_false_iff {x y : BitVec w} :
    x.saddOverflow y = false ↔
      -2 ^ (w - 1) ≤ x.toInt + y.toInt ∧ x.toInt + y.toInt < 2 ^ (w - 1) := by
  simp only [BitVec.saddOverflow, Bool.or_eq_false_iff, decide_eq_false_iff_not, not_le, not_lt, ge_iff_le]
  exact and_comm

theorem checkedSub_ok {x y : BitVec w} (h : x.ssubOverflow y = false) : checkedSub e x y = .ok (x - y) :=
  if_neg (by simp [h])

theorem checkedSub_error {x y : BitVec w} (h : x.ssubOverflow y = true) : checkedSub e x y = .error e :=
  if_pos h

theorem checkedShiftLeft_ok (x : BitVec w) {n : Nat} (h : n < w) : checkedShiftLeft e x n = .ok (x <<< n) :=
  if_neg (not_le.mpr h)

theorem checkedShiftLeft_eq_ok {x y : BitVec w} {n : Nat} :
    checkedShiftLeft e x n = .ok y ↔ n < w ∧ x <<< n = y := by
  rw [checkedShiftLeft]
  split
  · next h => simp [not_lt.mpr h]
  · next h => simp [not_le.mp h]

theorem checkedShiftRight_ok (x : BitVec w) {n : Nat} (h : n < w) : checkedShiftRight e x n = .ok (x >>> n) :=
  if_neg (not_le.mpr h)

/-- A word of positive width lies between the bounds of its width. -/
theorem toInt_bounds (hw : 0 < w) (x : BitVec w) : -2 ^ (w - 1) ≤ x.toInt ∧ x.toInt < 2 ^ (w - 1) := by
  have hpow : (2 : Int) ^ w = 2 * 2 ^ (w - 1) := by
    rw [← pow_succ', Nat.sub_add_cancel hw]
  have hlt := BitVec.two_mul_toInt_lt (x := x)
  have hle := BitVec.le_two_mul_toInt (x := x)
  rw [hpow] at hlt hle
  omega

/-- From a lesser word the distance is exact if it leaves the top bit clear. -/
theorem ssubOverflow_eq_false_of_le {lo x : BitVec w} (h : lo.toInt ≤ x.toInt) :
    x.ssubOverflow lo = false ↔ x.toInt - lo.toInt < 2 ^ (w - 1) := by
  rw [ssubOverflow_eq_false_iff]
  have hpow : (0 : Int) < 2 ^ (w - 1) := by positivity
  omega

/-- A word and the exact distance to another add up to it, exactly. -/
theorem checkedAdd_sub {lo x : BitVec w} (hw : 0 < w) (h : x.ssubOverflow lo = false) :
    checkedAdd e lo (x - lo) = .ok x := by
  have hsub : (x - lo).toInt = x.toInt - lo.toInt := BitVec.toInt_sub_of_not_ssubOverflow (by simp [h])
  have hexact : lo.saddOverflow (x - lo) = false := by
    have hx := toInt_bounds hw x
    rw [saddOverflow_eq_false_iff, hsub]
    omega
  rw [checkedAdd, if_neg (by simp [hexact]), BitVec.add_comm, BitVec.sub_add_cancel]

end ColumnarStore.Foundation
