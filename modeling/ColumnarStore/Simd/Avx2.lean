import ColumnarStore.Foundation.Lanes
import ColumnarStore.Foundation.LittleEndian

/-! The AVX2 comparisons and the masks they make.

A comparison fills the lanes that hold with ones and takes the top bit of every byte, so a
lane has four bits of its mask. `CmpLe` compares the difference with zero, which is neither
so for equal lanes nor for a difference that wraps; `MaskLoad` and `MaskStore` take the
first eight bits of a mask for the eight lanes. -/
namespace ColumnarStore.Simd
open Foundation

/-- `__m256i`, used as eight `int32_t`. -/
abbrev Vec256i := Lanes 8 32

/-- An `int`, with a bit for every byte of a register. -/
abbrev Mask := BitVec 32

def movemaskEpi8 (v : Vec256i) : Mask := Lanes.movemask (Lanes.split 4 8 v)

namespace Avx2

/-! ### The comparisons -/

def cmpEq (a b : Vec256i) : Mask := movemaskEpi8 (Lanes.cmpEq a b)

def cmpLt (a b : Vec256i) : Mask := movemaskEpi8 (Lanes.cmpGt b a)

def cmpLe (a b : Vec256i) : Mask := movemaskEpi8 (Lanes.cmpGt (Lanes.sub b a) (Lanes.set1 0))

end Avx2

namespace SimdOps

/-- The `CmpLe` of `SimdOps<SimdLevel::AVX2>`. -/
def cmpLe (a b : Vec256i) : Mask := movemaskEpi8 (Lanes.cmpGt (Lanes.sub b a) (Lanes.set1 0))

end SimdOps

/-! ### Masks with four bits a lane -/

/-- Four ones for every lane that holds. -/
def byteMask (holds : Fin 8 → Bool) : Mask := BitVec.ofFnLE fun j : Fin (8 * 4) => holds j.divNat

theorem getLsbD_byteMask (holds : Fin 8 → Bool) (j : Fin 32) :
    (byteMask holds).getLsbD j = holds ⟨j / 4, by omega⟩ := by
  unfold byteMask
  rw [BitVec.getLsbD_ofFnLE, dif_pos j.isLt]
  rfl

theorem byteMask_inj {p q : Fin 8 → Bool} : byteMask p = byteMask q ↔ ∀ i, p i = q i := by
  constructor
  · intro h i
    have hbit := congrArg (fun m => m.getLsbD (4 * i)) h
    have hdiv : 4 * i.val / 4 = i := Nat.mul_div_cancel_left i (by decide)
    have hlane : ∀ r : Fin 8 → Bool, (byteMask r).getLsbD (4 * i) = r i := fun r => by
      rw [getLsbD_byteMask r ⟨4 * i, by omega⟩]
      exact congrArg r (Fin.ext hdiv)
    rwa [hlane, hlane] at hbit
  · intro h
    rw [funext h]

theorem byteMask_or (p q : Fin 8 → Bool) : byteMask p ||| byteMask q = byteMask fun i => p i || q i := by
  refine BitVec.eq_of_getLsbD_eq fun j hj => ?_
  rw [BitVec.getLsbD_or, getLsbD_byteMask p ⟨j, hj⟩, getLsbD_byteMask q ⟨j, hj⟩, getLsbD_byteMask _ ⟨j, hj⟩]

theorem movemaskEpi8_onesWhere (holds : Fin 8 → Bool) : movemaskEpi8 (Lanes.onesWhere holds) = byteMask holds :=
  Lanes.movemask_split_onesWhere (by decide) 4 holds

namespace Avx2

theorem cmpEq_eq (a b : Vec256i) : cmpEq a b = byteMask fun i => a i == b i := movemaskEpi8_onesWhere _

theorem cmpLt_eq (a b : Vec256i) : cmpLt a b = byteMask fun i => (a i).slt (b i) := movemaskEpi8_onesWhere _

theorem cmpLe_eq (a b : Vec256i) : cmpLe a b = byteMask fun i => (0#32).slt (b i - a i) :=
  movemaskEpi8_onesWhere _

theorem cmpLt_or_cmpEq (a b : Vec256i) : cmpLt a b ||| cmpEq a b = byteMask fun i => (a i).sle (b i) := by
  rw [cmpLt_eq, cmpEq_eq, byteMask_or]
  congr 1
  funext i
  rw [Bool.eq_iff_iff, Bool.or_eq_true, BitVec.slt_iff_toInt_lt, BitVec.sle_iff_toInt_le, beq_iff_eq,
    ← BitVec.toInt_inj]
  omega

/-! ### Less or equal -/

/-- `CmpLe` tells the lanes that are less or equal, in the dispatch as well. -/
structure TellsLe (a b : Vec256i) : Prop where
  lanes : cmpLe a b = byteMask fun i => (a i).sle (b i)
  dispatched : SimdOps.cmpLe a b = byteMask fun i => (a i).sle (b i)
  union : cmpLe a b = cmpLt a b ||| cmpEq a b

/-- The difference is positive as it should be unless it is zero or wraps. -/
theorem slt_sub_eq_sle_iff (x y : BitVec 32) :
    (0#32).slt (y - x) = x.sle y ↔ x ≠ y ∧ -2 ^ 31 ≤ y.toInt - x.toInt ∧ y.toInt - x.toInt < 2 ^ 31 := by
  have hx := BitVec.le_toInt x
  have hx' := BitVec.toInt_lt (x := x)
  have hy := BitVec.le_toInt y
  have hy' := BitVec.toInt_lt (x := y)
  rw [Bool.eq_iff_iff, BitVec.slt_iff_toInt_lt, BitVec.sle_iff_toInt_le, BitVec.toInt_sub, BitVec.toInt_zero,
    Int.bmod_def, ne_eq, ← BitVec.toInt_inj]
  split <;> omega

/-- **`CmpLe` tells the lanes that are less or equal exactly when no lane is equal and no
difference wraps.** -/
theorem tellsLe_iff (a b : Vec256i) :
    TellsLe a b ↔
      ∀ i, a i ≠ b i ∧ -2 ^ 31 ≤ (b i).toInt - (a i).toInt ∧ (b i).toInt - (a i).toInt < 2 ^ 31 := by
  have hlanes : (cmpLe a b = byteMask fun i => (a i).sle (b i)) ↔
      ∀ i, a i ≠ b i ∧ -2 ^ 31 ≤ (b i).toInt - (a i).toInt ∧ (b i).toInt - (a i).toInt < 2 ^ 31 := by
    rw [cmpLe_eq, byteMask_inj]
    exact forall_congr' fun i => slt_sub_eq_sle_iff (a i) (b i)
  rw [← hlanes]
  constructor
  · intro h
    exact h.lanes
  · intro h
    exact ⟨h, h, h.trans (cmpLt_or_cmpEq a b).symm⟩

/-- No lane of a register is less than or equal to itself. -/
theorem equal_not_tellsLe : ¬ TellsLe (Lanes.set1 5) (Lanes.set1 5) := by
  intro h
  have hmask := h.lanes
  rw [cmpLe_eq, byteMask_inj] at hmask
  exact absurd (hmask 0) (by decide)

/-! ### Masked memory -/

/-- `m & (1u << i)` -/
def testLane (m : Mask) (i : Fin 8) : Bool := (m &&& 1#32 <<< i.val) != 0

/-- The words from `ptr` on, as far as the mask goes. -/
def maskLoad (mem : Nat → BitVec 32) (m : Mask) : Vec256i := fun i => if testLane m i then mem i else 0

def storeLane (m : Mask) (v : Vec256i) (dst : Nat → BitVec 32) (i : Fin 8) : Nat → BitVec 32 :=
  if testLane m i then Function.update dst i (v i) else dst

def maskStore (mem : Nat → BitVec 32) (m : Mask) (v : Vec256i) : Nat → BitVec 32 :=
  (List.finRange 8).foldl (storeLane m v) mem

theorem testLane_byteMask (holds : Fin 8 → Bool) (i : Fin 8) :
    testLane (byteMask holds) i = holds ⟨i / 4, by omega⟩ := by
  unfold testLane
  rw [and_shiftLeft_ne_zero _ (by omega)]
  exact getLsbD_byteMask holds ⟨i, by omega⟩

section Store
variable (m : Mask) (v : Vec256i)

theorem storeLane_lane (dst : Nat → BitVec 32) (i j : Fin 8) :
    storeLane m v dst j i = if i = j ∧ testLane m i = true then v i else dst i := by
  unfold storeLane
  by_cases hij : i = j
  · subst hij
    cases testLane m i <;> simp
  · have hval : i.val ≠ j := fun h => hij (Fin.ext h)
    cases testLane m j <;> simp [hij, hval]

theorem storeLane_frame (dst : Nat → BitVec 32) (j : Fin 8) {k : Nat} (hk : 8 ≤ k) :
    storeLane m v dst j k = dst k := by
  have hval : k ≠ j := by omega
  unfold storeLane
  cases testLane m j <;> simp [hval]

/-- One lane after another, those of the mask. -/
theorem foldl_storeLane (order : List (Fin 8)) (mem : Nat → BitVec 32) (i : Fin 8) :
    order.foldl (storeLane m v) mem i = if i ∈ order ∧ testLane m i = true then v i else mem i := by
  induction order generalizing mem with
  | nil => simp
  | cons j rest ih =>
    rw [List.foldl_cons, ih, storeLane_lane]
    cases testLane m i with
    | false => simp
    | true => by_cases hrest : i ∈ rest <;> simp [hrest]

theorem foldl_storeLane_frame (order : List (Fin 8)) (mem : Nat → BitVec 32) {k : Nat} (hk : 8 ≤ k) :
    order.foldl (storeLane m v) mem k = mem k := by
  induction order generalizing mem with
  | nil => rfl
  | cons j rest ih => rw [List.foldl_cons, ih, storeLane_frame m v mem j hk]

end Store

theorem maskStore_lane (mem : Nat → BitVec 32) (m : Mask) (v : Vec256i) (i : Fin 8) :
    maskStore mem m v i = if testLane m i then v i else mem i := by
  rw [maskStore, foldl_storeLane]
  simp only [List.mem_finRange, true_and]

/-! ### Masks of equal lanes -/

/-- The mask of the equal lanes stores and loads those lanes and no others. -/
structure Composes (a b v : Vec256i) (mem : Nat → BitVec 32) : Prop where
  stored : ∀ i : Fin 8, maskStore mem (cmpEq a b) v i = if a i = b i then v i else mem i
  framed : ∀ k, 8 ≤ k → maskStore mem (cmpEq a b) v k = mem k
  loaded : ∀ i : Fin 8, maskLoad mem (cmpEq a b) i = if a i = b i then mem i else 0

/-- Lane `i` is masked by whether lane `i / 4` is equal. -/
theorem testLane_cmpEq (a b : Vec256i) (i : Fin 8) :
    testLane (cmpEq a b) i = decide (a ⟨i / 4, by omega⟩ = b ⟨i / 4, by omega⟩) := by
  rw [cmpEq_eq, testLane_byteMask]
  rfl

/-- **The mask of the equal lanes composes with the masked accesses exactly when every lane is
equal just as lane `i / 4` is, or there are only zeros to store and to load.** -/
theorem composes_iff (a b v : Vec256i) (mem : Nat → BitVec 32) :
    Composes a b v mem ↔
      ∀ i : Fin 8, (a i = b i ↔ a ⟨i / 4, by omega⟩ = b ⟨i / 4, by omega⟩) ∨ (mem i = v i ∧ mem i = 0) := by
  constructor
  · intro h i
    have hstored := h.stored i
    have hloaded := h.loaded i
    rw [maskStore_lane, testLane_cmpEq] at hstored
    rw [maskLoad, testLane_cmpEq] at hloaded
    by_cases hi : a i = b i
    · by_cases hq : a ⟨i / 4, by omega⟩ = b ⟨i / 4, by omega⟩
      · exact .inl (iff_of_true hi hq)
      · rw [if_pos hi, decide_eq_false hq, if_neg Bool.false_ne_true] at hstored hloaded
        exact .inr ⟨hstored, hloaded.symm⟩
    · by_cases hq : a ⟨i / 4, by omega⟩ = b ⟨i / 4, by omega⟩
      · rw [if_neg hi, decide_eq_true hq, if_pos rfl] at hstored hloaded
        exact .inr ⟨hstored.symm, hloaded⟩
      · exact .inl (iff_of_false hi hq)
  · intro h
    refine ⟨fun i => ?_, fun k hk => foldl_storeLane_frame _ _ _ mem hk, fun i => ?_⟩
    · rw [maskStore_lane, testLane_cmpEq]
      rcases h i with h | h
      · simp only [h, decide_eq_true_eq]
      · rw [h.1, ite_self, ite_self]
    · rw [maskLoad, testLane_cmpEq]
      rcases h i with h | h
      · simp only [h, decide_eq_true_eq]
      · rw [h.2, ite_self, ite_self]

/-- Only the first lane is equal, and the first four are stored. -/
theorem firstLane_not_composes :
    ¬ Composes (fun i => if i = 0 then 1 else 2) (Lanes.set1 1) (Lanes.set1 7) fun _ => 0 := by
  intro h
  have hlane := h.stored 1
  rw [maskStore_lane, testLane_cmpEq] at hlane
  exact absurd hlane (by decide)

end Avx2

end ColumnarStore.Simd
