import ColumnarStore.Simd.Avx2

/-! The AVX2 prefix sum.

Three steps add the register to itself shifted by one, two and four lanes. The shift works
in each half of the register alone: the first two steps sum the halves and the third adds
nothing, so the sum of the low half is missing from the high lanes. -/
namespace ColumnarStore.Simd
open Foundation

/-- Each half shifted to the left by so many bytes. -/
def slliSi256 (v : Vec256i) (bytes : Nat) : Vec256i :=
  Lanes.split 4 32 (Lanes.sll (Lanes.join (n := 2) 4 v) (8 * bytes))

theorem slliSi256_lane (v : Vec256i) (c : Nat) (i : Fin 8) :
    slliSi256 v (4 * c) i = if i.val % 4 < c then 0 else v ⟨i - c, by omega⟩ := by
  have hshift : 8 * (4 * c) = 32 * c := by omega
  have hlane := Lanes.split_sll_join (n := 2) 4 v c i
  unfold slliSi256
  rw [hshift]
  by_cases hlow : i.val % 4 < c
  · rw [if_pos hlow]
    exact hlane.trans (if_pos hlow)
  · have hpart : 4 * (i.val / 4) + (i.val % 4 - c) = i - c := by omega
    rw [if_neg hlow]
    refine hlane.trans ((if_neg hlow).trans (congrArg v (Fin.ext ?_)))
    exact hpart

namespace Avx2

def prefixSum (v : Vec256i) : Vec256i :=
  let v := Lanes.add v (slliSi256 v 4)
  let v := Lanes.add v (slliSi256 v 8)
  Lanes.add v (slliSi256 v 16)

theorem add_slliSi256_lane (a : Vec256i) (c : Nat) (i : Fin 8) :
    Lanes.add a (slliSi256 a (4 * c)) i = a i + if i.val % 4 < c then 0 else a ⟨i - c, by omega⟩ := by
  rw [Lanes.add, slliSi256_lane]

/-- The sums up to the lane, but for the low half in the high lanes. -/
theorem prefixSum_lane (v : Vec256i) (i : Fin 8) :
    prefixSum v i = (∑ j ∈ Finset.Iic i, v j) - if 4 ≤ i.val then v 0 + v 1 + v 2 + v 3 else 0 := by
  have hsum : ∑ j ∈ Finset.Iic i, v j = ∑ j, if j ≤ i then v j else 0 := by
    rw [← Finset.sum_filter]
    congr 1
    ext j
    simp
  have hlast : i.val % 4 < 4 := Nat.mod_lt _ (by decide)
  -- the third step shifts every half away
  have hsteps : prefixSum v i = Lanes.add (Lanes.add v (slliSi256 v (4 * 1)))
      (slliSi256 (Lanes.add v (slliSi256 v (4 * 1))) (4 * 2)) i := by
    unfold prefixSum
    refine (add_slliSi256_lane _ 4 i).trans ?_
    rw [if_pos hlast, add_zero]
  rw [hsteps, hsum, Fin.sum_univ_eight]
  simp only [add_slliSi256_lane]
  fin_cases i <;> simp <;> ring
theorem prefixSum_high_iff (v : Vec256i) {i : Fin 8} (hi : 4 ≤ i.val) :
    prefixSum v i = ∑ j ∈ Finset.Iic i, v j ↔ v 0 + v 1 + v 2 + v 3 = 0 := by
  rw [prefixSum_lane, if_pos hi]
  exact sub_eq_self

/-! ### Arrays -/

/-- Eight values of an array from block `b` on, zeros behind its end. -/
def block (data : List (BitVec 32)) (b : Nat) : Vec256i := fun i => data.getD (8 * b + i) 0

/-- The last lane of the blocks before block `b`, each with the last lane before it added. -/
def carry (data : List (BitVec 32)) : Nat → BitVec 32
  | 0 => 0
  | b + 1 => carry data b + prefixSum (block data b) 7

/-- `PrefixSum` over an array, eight values at a time. -/
def scanned (data : List (BitVec 32)) : List (BitVec 32) :=
  (List.range data.length).map fun i =>
    carry data (i / 8) + prefixSum (block data (i / 8)) ⟨i % 8, Nat.mod_lt i (by decide)⟩

def prefixSums (data : List (BitVec 32)) : List (BitVec 32) :=
  (List.range data.length).map fun i => (data.take (i + 1)).sum

/-- The sum of the low half of block `b`. -/
def lowHalf (data : List (BitVec 32)) (b : Nat) : BitVec 32 := ((data.drop (8 * b)).take 4).sum

theorem sum_take (data : List (BitVec 32)) (m : Nat) :
    (data.take m).sum = ∑ j ∈ Finset.range m, data.getD j 0 := by
  induction m with
  | zero => simp
  | succ m ih =>
    rw [List.take_add_one, List.sum_append, ih, Finset.sum_range_succ, List.getD_eq_getElem?_getD]
    cases data[m]? <;> simp

theorem sum_take_add (data : List (BitVec 32)) (m n : Nat) :
    (data.take (m + n)).sum = (data.take m).sum + ((data.drop m).take n).sum := by
  rw [List.take_add, List.sum_append]

theorem sum_block (data : List (BitVec 32)) (b : Nat) (i : Fin 8) :
    ∑ j ∈ Finset.Iic i, block data b j = ((data.drop (8 * b)).take (i + 1)).sum := by
  have hmap := Finset.sum_map (Finset.Iic i) Fin.valEmbedding fun k => data.getD (8 * b + k) 0
  rw [Fin.map_valEmbedding_Iic, ← Nat.range_succ_eq_Iic] at hmap
  rw [sum_take]
  simp only [List.getD_eq_getElem?_getD, List.getElem?_drop] at hmap ⊢
  exact hmap.symm

theorem sum_lowLanes (data : List (BitVec 32)) (b : Nat) :
    block data b 0 + block data b 1 + block data b 2 + block data b 3 = lowHalf data b := by
  unfold lowHalf
  rw [sum_take]
  simp [Finset.sum_range_succ, block, List.getD_eq_getElem?_getD]

section Scan
variable (data : List (BitVec 32))

/-- What a lane misses is the low halves before it, if that is so of the carry. -/
theorem carry_add_lane {b : Nat}
    (h : carry data b = (data.take (8 * b)).sum - ∑ k ∈ Finset.range b, lowHalf data k) (i : Fin 8) :
    carry data b + prefixSum (block data b) i =
      (data.take (8 * b + i + 1)).sum - ∑ k ∈ Finset.range ((8 * b + i + 4) / 8), lowHalf data k := by
  rw [h, prefixSum_lane, sum_block, sum_lowLanes, Nat.add_assoc (8 * b), sum_take_add data (8 * b) (i + 1)]
  by_cases hhigh : 4 ≤ i.val
  · have hdiv : (8 * b + i + 4) / 8 = b + 1 := by omega
    rw [if_pos hhigh, hdiv, Finset.sum_range_succ]
    ring
  · have hdiv : (8 * b + i + 4) / 8 = b := by omega
    rw [if_neg hhigh, hdiv]
    ring

theorem carry_eq (b : Nat) : carry data b = (data.take (8 * b)).sum - ∑ k ∈ Finset.range b, lowHalf data k := by
  induction b with
  | zero => simp [carry]
  | succ b ih =>
    have hdiv : (8 * b + 7 + 4) / 8 = b + 1 := by omega
    have hlane := carry_add_lane data ih 7
    show carry data b + prefixSum (block data b) 7 = _
    rw [hlane, show ((7 : Fin 8) : Nat) = 7 from rfl, hdiv]
    rfl

/-- A scanned value is the prefix sum less the low halves of the blocks up to it. -/
theorem getElem?_scanned {i : Nat} (hi : i < data.length) :
    (scanned data)[i]? =
      some ((data.take (i + 1)).sum - ∑ k ∈ Finset.range ((i + 4) / 8), lowHalf data k) := by
  have hlane := carry_add_lane data (carry_eq data (i / 8)) ⟨i % 8, Nat.mod_lt i (by decide)⟩
  have hpos : 8 * (i / 8) + i % 8 = i := Nat.div_add_mod i 8
  simp only [hpos] at hlane
  rw [scanned, List.getElem?_map, List.getElem?_range hi, Option.map_some, hlane]

theorem scanned_eq_iff :
    scanned data = prefixSums data ↔ ∀ b, 8 * b + 4 < data.length → lowHalf data b = 0 := by
  have hsums : ∀ {i : Nat}, i < data.length → (prefixSums data)[i]? = some (data.take (i + 1)).sum := fun hi => by
    rw [prefixSums, List.getElem?_map, List.getElem?_range hi, Option.map_some]
  have hmissed : scanned data = prefixSums data ↔
      ∀ i, i < data.length → ∑ k ∈ Finset.range ((i + 4) / 8), lowHalf data k = 0 := by
    constructor
    · intro h i hi
      have hvalue := getElem?_scanned data hi
      rw [h, hsums hi, Option.some.injEq] at hvalue
      exact sub_eq_self.mp hvalue.symm
    · intro h
      refine List.ext_getElem? fun i => ?_
      by_cases hi : i < data.length
      · rw [getElem?_scanned data hi, hsums hi, h i hi, sub_zero]
      · have hlen : (scanned data).length ≤ i ∧ (prefixSums data).length ≤ i := by
          simp [scanned, prefixSums]
          omega
        rw [List.getElem?_eq_none hlen.1, List.getElem?_eq_none hlen.2]
  rw [hmissed]
  constructor
  · intro h b
    -- the fifth lane of a block is the first to miss its low half
    induction b using Nat.strong_induction_on with
    | _ b ih =>
      intro hb
      have hdiv : (8 * b + 4 + 4) / 8 = b + 1 := by omega
      have hsum := h (8 * b + 4) hb
      rw [hdiv, Finset.sum_range_succ] at hsum
      rwa [Finset.sum_eq_zero fun k hk => ih k (Finset.mem_range.mp hk) ?_, zero_add] at hsum
      have := Finset.mem_range.mp hk
      omega
  · intro h i hi
    refine Finset.sum_eq_zero fun k hk => h k ?_
    have := Finset.mem_range.mp hk
    omega

end Scan

/-- **`PrefixSum` sums up to every lane of a vector exactly when its low half sums to zero, and
over an array when those of its blocks do.** -/
theorem prefixSum_eq_iff (v : Vec256i) (data : List (BitVec 32)) :
    ((∀ i, prefixSum v i = ∑ j ∈ Finset.Iic i, v j) ↔ v 0 + v 1 + v 2 + v 3 = 0) ∧
      (scanned data = prefixSums data ↔
        ∀ b, 8 * b + 4 < data.length → ((data.drop (8 * b)).take 4).sum = 0) := by
  refine ⟨?_, scanned_eq_iff data⟩
  constructor
  · intro h
    exact (prefixSum_high_iff v (i := 4) (by decide)).mp (h 4)
  · intro h i
    rw [prefixSum_lane, h, ite_self, sub_zero]

/-- Eight ones: the fifth lane is one. -/
theorem ones_not_prefixSum :
    ¬ ∀ i, prefixSum (Lanes.set1 1) i = ∑ j ∈ Finset.Iic i, (Lanes.set1 1 : Vec256i) j := by
  intro h
  have hlow := (prefixSum_high_iff (Lanes.set1 1) (i := 4) (by decide)).mp (h 4)
  exact absurd hlow (by decide)

end Avx2

end ColumnarStore.Simd
