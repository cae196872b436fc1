import Mathlib

/-! Vector registers.

A register is a number of lanes, all of one width. An operation works on every lane, or
moves lanes to other places. Bits are not moved by a cast: seen in parts, a lane is its
parts, least significant first. -/
namespace ColumnarStore.Foundation

/-- A register of `n` lanes of `w` bits. -/
abbrev Lanes (n w : Nat) := Fin n → BitVec w

namespace Lanes
variable {n m w v : Nat}

/-- One value in every lane. -/
def set1 (x : BitVec w) : Lanes n w := fun _ => x

def add (a b : Lanes n w) : Lanes n w := fun i => a i + b i

def sub (a b : Lanes n w) : Lanes n w := fun i => a i - b i

def and (a b : Lanes n w) : Lanes n w := fun i => a i &&& b i

/-- Every lane shifted to the right by its own count; a count of the width or more leaves
nothing. -/
def srlv (a counts : Lanes n w) : Lanes n w := fun i => a i >>> (counts i).toNat

/-- Every lane shifted to the left. -/
def sll (a : Lanes n w) (count : Nat) : Lanes n w := fun i => a i <<< count

/-- All ones in the lanes that hold, nothing in the others. -/
def onesWhere (holds : Fin n → Bool) : Lanes n w := fun i => if holds i then BitVec.allOnes w else 0

def cmpEq (a b : Lanes n w) : Lanes n w := onesWhere fun i => a i == b i

/-- The lanes compared as signed numbers. -/
def cmpGt (a b : Lanes n w) : Lanes n w := onesWhere fun i => (b i).slt (a i)

/-- The top bits of the lanes. -/
def movemask (a : Lanes n w) : BitVec n := BitVec.ofFnLE fun i => (a i).msb

/-- The low lanes. -/
def castLow (h : m ≤ n) (a : Lanes n w) : Lanes m w := fun i => a (Fin.castLE h i)

/-- The lanes over and over. -/
def broadcast [NeZero m] (a : Lanes m w) : Lanes n w := fun i => a (Fin.ofNat m i)

/-- Every lane seen as `k` lanes of `w` bits. -/
def split (k w : Nat) (a : Lanes n v) : Lanes (n * k) w := fun i => (a i.divNat).extractLsb' (w * i.modNat) w

/-- Every two lanes seen as one of twice their width. -/
def pairs (a : Lanes (2 * n) w) : Lanes n (w + w) := fun k => a ⟨2 * k + 1, by omega⟩ ++ a ⟨2 * k, by omega⟩

/-- Every `k` lanes seen as one. -/
def join (k : Nat) (a : Lanes (n * k) w) : Lanes n (k * w) := fun i =>
  BitVec.ofFnLE fun j => (a (Fin.mkDivMod i j.divNat)).getLsb j.modNat

/-- The lanes of a pair make up its number. -/
theorem toNat_pairs (a : Lanes (2 * n) w) (k : Fin n) :
    (pairs a k).toNat = (a ⟨2 * k + 1, by omega⟩).toNat * 2 ^ w + (a ⟨2 * k, by omega⟩).toNat := by
  rw [pairs, BitVec.toNat_append, ← Nat.shiftLeft_add_eq_or_of_lt (a _).isLt, Nat.shiftLeft_eq]

theorem getLsbD_split (k w : Nat) (a : Lanes n v) (i : Fin (n * k)) (j : Nat) :
    (split k w a i).getLsbD j = (decide (j < w) && (a i.divNat).getLsbD (w * i.modNat + j)) :=
  BitVec.getLsbD_extractLsb' _ _ _ _

theorem getLsbD_join (k : Nat) (a : Lanes (n * k) w) (i : Fin n) (q : Fin k) {j : Nat} (hj : j < w) :
    (join k a i).getLsbD (w * q + j) = (a (Fin.mkDivMod i q)).getLsbD j := by
  have hbit : w * q + j < k * w := Nat.mul_add_lt_mul_of_lt_of_lt q.isLt hj
  have hdiv : (w * q + j) / w = q := by
    rw [Nat.mul_add_div (by omega), Nat.div_eq_of_lt hj, Nat.add_zero]
  have hmod : (w * q + j) % w = j := by rw [Nat.mul_add_mod, Nat.mod_eq_of_lt hj]
  rw [join, BitVec.getLsbD_ofFnLE, dif_pos hbit, show Fin.divNat ⟨w * q + j, hbit⟩ = q from Fin.ext hdiv,
    show Fin.modNat ⟨w * q + j, hbit⟩ = ⟨j, hj⟩ from Fin.ext hmod, BitVec.getLsbD_eq_getElem hj]
  rfl

/-- A joined lane shifted by whole parts: every part comes from that many parts below it,
and from nowhere if there are none. -/
theorem split_sll_join (k : Nat) (a : Lanes (n * k) w) (c : Nat) (i : Fin (n * k)) :
    split k w (sll (join k a) (w * c)) i =
      if i.modNat < c then 0 else a (Fin.mkDivMod i.divNat ⟨i.modNat - c, by omega⟩) := by
  refine BitVec.eq_of_getLsbD_eq fun j hj => ?_
  have hbit : w * i.modNat + j < k * w := Nat.mul_add_lt_mul_of_lt_of_lt i.modNat.isLt hj
  rw [getLsbD_split, sll, BitVec.getLsbD_shiftLeft, decide_eq_true hj, decide_eq_true hbit, Bool.true_and,
    Bool.true_and]
  by_cases hlow : i.modNat < c
  · have hlt : w * i.modNat + j < c * w := Nat.mul_add_lt_mul_of_lt_of_lt hlow hj
    rw [if_pos hlow, decide_eq_true (by rwa [Nat.mul_comm w c]), Bool.not_true, Bool.false_and]
    exact BitVec.getLsbD_zero.symm
  · have hle : w * c ≤ w * i.modNat := Nat.mul_le_mul_left w (Nat.le_of_not_lt hlow)
    have hpos : w * i.modNat + j - w * c = w * (i.modNat - c) + j := by
      rw [Nat.mul_sub]
      omega
    rw [if_neg hlow, decide_eq_false (by omega), Bool.not_false, Bool.true_and, hpos]
    exact getLsbD_join k a i.divNat ⟨i.modNat - c, by omega⟩ hj

/-- The mask of the parts: every lane that holds gives a one for each of its parts. -/
theorem movemask_split_onesWhere (hw : 0 < w) (k : Nat) (holds : Fin n → Bool) :
    movemask (split k w (onesWhere holds : Lanes n (w * k))) = BitVec.ofFnLE fun j => holds j.divNat := by
  unfold movemask
  congr 1
  funext j
  have hbit : w * j.modNat + (w - 1) < k * w := Nat.mul_add_lt_mul_of_lt_of_lt j.modNat.isLt (by omega)
  rw [BitVec.msb_eq_getLsbD_last, getLsbD_split, decide_eq_true (by omega), Bool.true_and, onesWhere]
  cases holds j.divNat with
  | false => exact BitVec.getLsbD_zero
  | true =>
    rw [if_pos rfl, BitVec.getLsbD_allOnes]
    exact decide_eq_true (Nat.mul_comm w k ▸ hbit)

/-- A field of a lane, shifted down and masked. -/
theorem getLsbD_and_srlv (a counts mask : Lanes n w) (i : Fin n) (j : Nat) :
    (and (srlv a counts) mask i).getLsbD j = ((a i).getLsbD ((counts i).toNat + j) && (mask i).getLsbD j) := by
  rw [and, srlv, BitVec.getLsbD_and, BitVec.getLsbD_ushiftRight]

end Lanes

end ColumnarStore.Foundation
