import ColumnarStore.Types
import ColumnarStore.Foundation.Floats

/-! The conversion of `float` to `double` keeps the order.

Every finite `float` keeps its value (`units_widen`), infinities stay infinities and NaNs NaNs. So
comparisons of converted values are the comparisons of the values. -/
namespace ColumnarStore
open Foundation Floats

/-- What `floatToDouble` makes of a pattern without sign. -/
def widen (magnitude : Nat) : Nat :=
  let exponent := magnitude / 2 ^ 23
  let fraction := magnitude % 2 ^ 23
  if exponent = 255 then 2047 * 2 ^ 52 + fraction * 2 ^ 29
  else if exponent ≠ 0 then (exponent + 896) * 2 ^ 52 + fraction * 2 ^ 29
  else if fraction = 0 then 0
  else
    let top := Nat.log2 fraction
    (top + 874) * 2 ^ 52 + (fraction - 2 ^ top) * 2 ^ (52 - top)

/-! ### Magnitudes -/

theorem widen_zero : widen 0 = 0 := rfl

/-- From the exponent of infinity on. -/
theorem widen_top {magnitude : Nat} (h : magnitude / 2 ^ 23 = 255) :
    widen magnitude = 2047 * 2 ^ 52 + magnitude % 2 ^ 23 * 2 ^ 29 := if_pos h

theorem widen_normal {magnitude : Nat} (hne : magnitude / 2 ^ 23 ≠ 0) (hlt : magnitude / 2 ^ 23 < 255) :
    widen magnitude = (magnitude / 2 ^ 23 + 896) * 2 ^ 52 + magnitude % 2 ^ 23 * 2 ^ 29 := by
  unfold widen
  exact (if_neg hlt.ne).trans (if_pos hne)

/-- The leading bit of a subnormal magnitude, and what is below it. -/
theorem widen_subnormal {magnitude : Nat} (hne : magnitude ≠ 0) (hlt : magnitude < 2 ^ 23) :
    widen magnitude = (Nat.log2 magnitude + 874) * 2 ^ 52 +
      (magnitude - 2 ^ Nat.log2 magnitude) * 2 ^ (52 - Nat.log2 magnitude) := by
  have hexponent : magnitude / 2 ^ 23 = 0 := Nat.div_eq_of_lt hlt
  have hfraction : magnitude % 2 ^ 23 = magnitude := Nat.mod_eq_of_lt hlt
  unfold widen
  rw [hexponent, hfraction]
  exact (if_neg hne)

theorem log2_bounds {fraction : Nat} (hne : fraction ≠ 0) (hlt : fraction < 2 ^ 23) :
    Nat.log2 fraction ≤ 22 ∧ 2 ^ Nat.log2 fraction ≤ fraction ∧
      (fraction - 2 ^ Nat.log2 fraction) * 2 ^ (52 - Nat.log2 fraction) < 2 ^ 52 := by
  have hle := Nat.log2_self_le hne
  have htop : Nat.log2 fraction < 23 := (Nat.log2_lt hne).mpr hlt
  have hnext : fraction < 2 ^ (Nat.log2 fraction + 1) := Nat.lt_log2_self
  refine ⟨by omega, hle, ?_⟩
  have hbelow : fraction - 2 ^ Nat.log2 fraction < 2 ^ Nat.log2 fraction := by
    rw [Nat.pow_succ] at hnext
    omega
  calc (fraction - 2 ^ Nat.log2 fraction) * 2 ^ (52 - Nat.log2 fraction)
      < 2 ^ Nat.log2 fraction * 2 ^ (52 - Nat.log2 fraction) :=
        Nat.mul_lt_mul_of_pos_right hbelow (Nat.two_pow_pos _)
    _ = 2 ^ 52 := by rw [← Nat.pow_add, Nat.add_sub_cancel' (by omega)]

/-- By how many powers of two the least subnormal `double` is below the least subnormal `float`. -/
def finerBy : Nat := 1074 - 149

theorem subnormal_exponent {top : Nat} (h : top ≤ 22) : 52 - top + (top + 873) = finerBy := by
  unfold finerBy
  omega

theorem normal_exponent {exponent : Nat} (h : exponent ≠ 0) : 29 + (exponent + 895) = exponent - 1 + finerBy := by
  unfold finerBy
  omega

/-- The conversion of a finite `float` is exact. -/
theorem units_widen {magnitude : Nat} (h : magnitude < 255 * 2 ^ 23) :
    units 52 (widen magnitude) = units 23 magnitude * 2 ^ finerBy := by
  have hexponent : magnitude / 2 ^ 23 < 255 := Nat.div_lt_of_lt_mul (by omega)
  by_cases hzero : magnitude / 2 ^ 23 = 0
  · have hlt : magnitude < 2 ^ 23 := by omega
    rw [units_subnormal hlt]
    by_cases hne : magnitude = 0
    · rw [hne, widen_zero, units_subnormal (by decide), Nat.zero_mul]
    · obtain ⟨htop, hle, hbelow⟩ := log2_bounds hne hlt
      rw [widen_subnormal hne hlt, show Nat.log2 magnitude + 874 = Nat.log2 magnitude + 873 + 1 by omega,
        units_normal _ hbelow]
      generalize Nat.log2 magnitude = top at htop hle
      have hpower : (2 : Nat) ^ 52 = 2 ^ top * 2 ^ (52 - top) := by
        rw [← Nat.pow_add, Nat.add_sub_cancel' (by omega)]
      rw [hpower, ← Nat.add_mul, Nat.add_sub_cancel' hle, Nat.mul_assoc, ← Nat.pow_add, subnormal_exponent htop]
  · have hsplit : magnitude = (magnitude / 2 ^ 23 - 1 + 1) * 2 ^ 23 + magnitude % 2 ^ 23 := by omega
    have hfraction : magnitude % 2 ^ 23 < 2 ^ 23 := Nat.mod_lt _ (by decide)
    rw [widen_normal hzero hexponent]
    conv => rhs; rw [hsplit]
    rw [units_normal _ hfraction, show magnitude / 2 ^ 23 + 896 = magnitude / 2 ^ 23 + 895 + 1 by omega,
      units_normal _ (by omega)]
    generalize magnitude % 2 ^ 23 = fraction
    generalize magnitude / 2 ^ 23 = exponent at hzero
    have hsum : 2 ^ 52 + fraction * 2 ^ 29 = (2 ^ 23 + fraction) * 2 ^ 29 := by omega
    rw [hsum, Nat.mul_assoc, ← Nat.pow_add, normal_exponent hzero, Nat.pow_add, Nat.mul_assoc]

/-- What is finite stays finite, infinity stays infinity, and what lies above is no number. -/
theorem widen_cmp_top (magnitude : Nat) (h : magnitude < 2 ^ 31) :
    (magnitude < 255 * 2 ^ 23 ↔ widen magnitude < 2047 * 2 ^ 52) ∧
      (255 * 2 ^ 23 < magnitude ↔ 2047 * 2 ^ 52 < widen magnitude) ∧ widen magnitude < 2 ^ 63 := by
  have hexponent : magnitude / 2 ^ 23 < 256 := Nat.div_lt_of_lt_mul (by omega)
  by_cases htop : magnitude / 2 ^ 23 = 255
  · rw [widen_top htop]
    omega
  by_cases hzero : magnitude / 2 ^ 23 = 0
  · by_cases hne : magnitude = 0
    · subst hne
      decide
    · obtain ⟨hlog, -, hbelow⟩ := log2_bounds hne (by omega)
      rw [widen_subnormal hne (by omega)]
      omega
  · rw [widen_normal hzero (by omega)]
    omega

theorem widen_lt_widen_iff {a b : Nat} (ha : a ≤ 255 * 2 ^ 23) (hb : b ≤ 255 * 2 ^ 23) : a < b ↔ widen a < widen b := by
  obtain ⟨hfinite, hnan, -⟩ := widen_cmp_top a (by omega)
  obtain ⟨hfinite', hnan', -⟩ := widen_cmp_top b (by omega)
  rcases Nat.lt_or_ge a (255 * 2 ^ 23) with ha | ha
  · rcases Nat.lt_or_ge b (255 * 2 ^ 23) with hb | hb
    · rw [← (units_strictMono 52).lt_iff_lt (a := widen a), units_widen ha, units_widen hb,
        Nat.mul_lt_mul_right (Nat.two_pow_pos finerBy), (units_strictMono 23).lt_iff_lt]
    · omega
  · omega

/-! ### Patterns -/

theorem toNat_floatToDouble (x : BitVec 32) :
    (floatToDouble x).toNat = x.toNat / 2 ^ 31 * 2 ^ 63 + widen (x.toNat % 2 ^ 31) := by
  have hlt := x.isLt
  obtain ⟨-, -, hwiden⟩ := widen_cmp_top (x.toNat % 2 ^ 31) (by omega)
  have hexponent : x.toNat / 2 ^ 23 % 2 ^ 8 = x.toNat % 2 ^ 31 / 2 ^ 23 := by omega
  have hfraction : x.toNat % 2 ^ 23 = x.toNat % 2 ^ 31 % 2 ^ 23 := by omega
  have hdouble : floatToDouble x =
      BitVec.ofNat 64 (x.toNat / 2 ^ 31 * 2 ^ 63 + widen (x.toNat % 2 ^ 31)) := by
    unfold floatToDouble widen
    rw [hexponent, hfraction]
  rw [hdouble, BitVec.toNat_ofNat]
  exact Nat.mod_eq_of_lt (by omega)

namespace Native

theorem key_float (x : BitVec 32) : key .float x =
    if 255 * 2 ^ 23 < x.toNat % 2 ^ 31 then none
    else some (if x.toNat < 2 ^ 31 then ((x.toNat % 2 ^ 31 : Nat) : Int) else -((x.toNat % 2 ^ 31 : Nat) : Int)) := rfl

theorem key_floatToDouble (x : BitVec 32) : key .double (floatToDouble x) =
    if 255 * 2 ^ 23 < x.toNat % 2 ^ 31 then none
    else some (if x.toNat < 2 ^ 31 then (widen (x.toNat % 2 ^ 31) : Int) else -(widen (x.toNat % 2 ^ 31) : Int)) := by
  have hlt := x.isLt
  have hbits := toNat_floatToDouble x
  obtain ⟨-, hnan, hwiden⟩ := widen_cmp_top (x.toNat % 2 ^ 31) (by omega)
  have hmagnitude : (floatToDouble x).toNat % 2 ^ (11 + 52) = widen (x.toNat % 2 ^ 31) := by
    rw [hbits, Nat.mul_comm, Nat.mul_add_mod, Nat.mod_eq_of_lt hwiden]
  have hsign : (floatToDouble x).toNat < 2 ^ (11 + 52) ↔ x.toNat < 2 ^ 31 := by
    rw [hbits]
    omega
  show floatKey 11 52 (floatToDouble x).toNat = _
  unfold floatKey
  simp only [hmagnitude, hsign]
  exact if_congr hnan.symm rfl rfl

/-- Numbers of converted values compare as those of the values. -/
theorem key_floatToDouble_lt {x y : BitVec 32} {a b a' b' : Int} (ha : key .float x = some a)
    (hb : key .float y = some b) (ha' : key .double (floatToDouble x) = some a')
    (hb' : key .double (floatToDouble y) = some b') : a' < b' ↔ a < b := by
  have hzero : ∀ {m : Nat}, ¬255 * 2 ^ 23 < m → (widen m = 0 ↔ m = 0) := by
    intro m hm
    have h := widen_lt_widen_iff (Nat.zero_le (255 * 2 ^ 23)) (not_lt.mp hm)
    rw [widen_zero] at h
    omega
  rw [key_float] at ha hb
  rw [key_floatToDouble] at ha' hb'
  split at ha
  · cases ha
  next hx =>
  split at hb
  · cases hb
  next hy =>
  rw [if_neg hx] at ha'
  rw [if_neg hy] at hb'
  cases ha
  cases hb
  cases ha'
  cases hb'
  exact signed_lt_iff (widen_lt_widen_iff (not_lt.mp hx) (not_lt.mp hy)).symm
    (widen_lt_widen_iff (not_lt.mp hy) (not_lt.mp hx)).symm (hzero hx) (hzero hy) _ _

section Conversion
variable {t : DataType} (ht : t.isFloatingPoint = true)
include ht

/-- A conversion to `double` has a number where the value has one. -/
theorem key_toDouble_eq_none (x : Native t) : key .double (x.toDouble t) = none ↔ key t x = none := by
  cases t with
  | float =>
    have hx := key_float x
    have hx' := key_floatToDouble x
    show key .double (floatToDouble x) = none ↔ _
    rw [hx, hx']
    split
    · exact iff_of_true rfl rfl
    · exact iff_of_false nofun nofun
  | double => exact Iff.rfl
  | _ => cases ht

theorem key_toDouble_lt {x y : Native t} {a b a' b' : Int} (ha : key t x = some a) (hb : key t y = some b)
    (ha' : key .double (x.toDouble t) = some a') (hb' : key .double (y.toDouble t) = some b') : a' < b' ↔ a < b := by
  cases t with
  | float => exact key_floatToDouble_lt ha hb ha' hb'
  | double =>
    cases ha.symm.trans ha'
    cases hb.symm.trans hb'
    exact Iff.rfl
  | _ => cases ht

theorem lt_toDouble (x y : Native t) : lt .double (x.toDouble t) (y.toDouble t) = lt t x y := by
  have hx := key_toDouble_eq_none ht x
  have hy := key_toDouble_eq_none ht y
  unfold lt
  cases ha : key t x with
  | none => rw [hx.mpr ha]
  | some a =>
    cases hb : key t y with
    | none =>
      rw [hy.mpr hb]
      split <;> simp_all
    | some b =>
      obtain ⟨a', ha'⟩ := Option.ne_none_iff_exists'.mp (mt hx.mp (ha ▸ nofun))
      obtain ⟨b', hb'⟩ := Option.ne_none_iff_exists'.mp (mt hy.mp (hb ▸ nofun))
      rw [ha', hb']
      exact decide_eq_decide.mpr (key_toDouble_lt ht ha hb ha' hb')

theorem eq_toDouble (x y : Native t) : eq .double (x.toDouble t) (y.toDouble t) = eq t x y := by
  have hx := key_toDouble_eq_none ht x
  have hy := key_toDouble_eq_none ht y
  unfold eq
  cases ha : key t x with
  | none => rw [hx.mpr ha]
  | some a =>
    cases hb : key t y with
    | none =>
      rw [hy.mpr hb]
      split <;> simp_all
    | some b =>
      obtain ⟨a', ha'⟩ := Option.ne_none_iff_exists'.mp (mt hx.mp (ha ▸ nofun))
      obtain ⟨b', hb'⟩ := Option.ne_none_iff_exists'.mp (mt hy.mp (hb ▸ nofun))
      rw [ha', hb']
      have hlt := key_toDouble_lt ht ha hb ha' hb'
      have hgt := key_toDouble_lt ht hb ha hb' ha'
      exact decide_eq_decide.mpr (by omega)

end Conversion

end Native

end ColumnarStore
