import ColumnarStore.Column.VectorOps
import ColumnarStore.Standalone.Rle

/-! The comparison kernels, register by register.

An AVX-512 comparison gives a bit for each lane, a scalar one an integer that is all ones
or zero; either is promoted, perhaps complemented, and read bit by bit into the mask. Every
kernel leaves in the mask the comparison of every value and nothing behind them. Those of
`VectorFilter` do the stores the scan counts on (`into_eq`). -/
namespace ColumnarStore
open Foundation Blocks Scanner Predicates
open Standalone.Rle (predicateType compares compares_int)
variable {t : DataType}

/-! ### Masks of lanes -/

namespace VectorTraits

/-- The bits of what a comparison returns. -/
def maskBits (build : Build) (t : DataType) : Nat :=
  match build with
  | .scalar => 8 * t.typeSize
  | .avx512 => width .avx512 t

abbrev Vec (build : Build) (t : DataType) := Lanes (width build t) (8 * t.typeSize)

abbrev Mask (build : Build) (t : DataType) := BitVec (maskBits build t)

section Promotion
variable {v : Nat}

/-- A mask in an expression: those of less than 32 bits are unsigned and become an `int`. -/
def promote (m : BitVec v) : BitVec (Nat.max v 32) := m.setWidth _

/-- `m = ~m` -/
def complement (m : BitVec v) : BitVec v := (~~~promote m).setWidth v

/-- `(m >> j) & 1` -/
def testBit (m : BitVec v) (j : Nat) : Bool := ((promote m).sshiftRight j &&& 1) != 0

theorem testBit_eq (m : BitVec v) {j : Nat} (hj : j < v) : testBit m j = m.getLsbD j := by
  have hwide : v ≤ Nat.max v 32 := Nat.le_max_left v 32
  have hbit := and_shiftLeft_ne_zero ((promote m).sshiftRight j) (k := 0) (by omega)
  rw [BitVec.shiftLeft_zero] at hbit
  refine hbit.trans ?_
  rw [BitVec.getLsbD_sshiftRight, Nat.add_zero, if_pos (by omega), promote, BitVec.getLsbD_setWidth,
    decide_eq_false (by omega), decide_eq_true (hj.trans_le hwide), Bool.not_false, Bool.true_and, Bool.true_and]

theorem testBit_complement (m : BitVec v) {j : Nat} (hj : j < v) : testBit (complement m) j = !testBit m j := by
  have hwide : v ≤ Nat.max v 32 := Nat.le_max_left v 32
  rw [testBit_eq _ hj, testBit_eq _ hj, complement, BitVec.getLsbD_setWidth, BitVec.getLsbD_not, promote,
    BitVec.getLsbD_setWidth, decide_eq_true hj, decide_eq_true (hj.trans_le hwide)]
  simp only [Bool.true_and]

end Promotion

/-- A comparison of integer lanes: a bit for each, or `-1` and `0` of the scalar type. -/
def compareLanes (build : Build) (holds : Native t → Native t → Bool) (a b : Vec build t) : Mask build t :=
  match build with
  | .scalar => if holds (a (0 : Fin 1)) (b (0 : Fin 1)) then BitVec.allOnes _ else 0
  | .avx512 => BitVec.ofFnLE fun j : Fin (width .avx512 t) => holds (a j) (b j)

def cmpEq (build : Build) (a b : Vec build t) : Mask build t := compareLanes build (· == ·) a b

def cmpLt (build : Build) (a b : Vec build t) : Mask build t := compareLanes build BitVec.slt a b

def cmpLe (build : Build) (a b : Vec build t) : Mask build t := compareLanes build BitVec.sle a b

theorem lane_lt_maskBits (build : Build) (j : Fin (width build t)) : j.val < maskBits build t := by
  cases build with
  | scalar =>
    have hpos := t.typeSize_pos
    have hj : j.val < 1 := j.isLt
    show j.val < 8 * t.typeSize
    omega
  | avx512 => exact j.isLt

/-- The bit of a lane tells the comparison of the lane. -/
theorem testBit_compareLanes (build : Build) (holds : Native t → Native t → Bool) (a b : Vec build t)
    (j : Fin (width build t)) : testBit (compareLanes build holds a b) j = holds (a j) (b j) := by
  have hin := lane_lt_maskBits build j
  rw [testBit_eq _ hin]
  cases build with
  | scalar =>
    have hj : j = (0 : Fin 1) := Subsingleton.elim (α := Fin 1) j 0
    subst hj
    show (if holds (a (0 : Fin 1)) (b (0 : Fin 1)) then BitVec.allOnes (8 * t.typeSize) else 0).getLsbD 0 = _
    cases holds (a (0 : Fin 1)) (b (0 : Fin 1)) with
    | false => exact BitVec.getLsbD_zero
    | true => exact BitVec.getLsbD_allOnes.trans (decide_eq_true hin)
  | avx512 => exact (BitVec.getLsbD_ofFnLE _ j).trans (dif_pos j.isLt)

/-- The mask of a predicate. -/
def laneMask (build : Build) (pred : PredicateType) (vdata vval : Vec build t) : Mask build t :=
  match pred with
  | .lessThan => cmpLt build vdata vval
  | .lessEqual => cmpLe build vdata vval
  | .greaterThan => cmpLt build vval vdata
  | .greaterEqual => cmpLe build vval vdata
  | .notEqual => complement (cmpEq build vdata vval)
  | _ => cmpEq build vdata vval

theorem testBit_laneMask (build : Build) (op : CompareOp) (a b : Vec build t) (j : Fin (width build t)) :
    testBit (laneMask build (predicateType op) a b) j = op.holds (a j).toInt (b j).toInt := by
  have heq : testBit (cmpEq build a b) j = decide ((a j).toInt = (b j).toInt) := by
    rw [cmpEq, testBit_compareLanes, Bool.eq_iff_iff, beq_iff_eq, decide_eq_true_iff, BitVec.toInt_inj]
  cases op with
  | eq => exact heq
  | ne =>
    show testBit (complement (cmpEq build a b)) j = _
    rw [testBit_complement _ (lane_lt_maskBits build j), heq]
    exact (decide_not).symm
  | lt => exact testBit_compareLanes build BitVec.slt a b j
  | le => exact testBit_compareLanes build BitVec.sle a b j
  | gt => exact testBit_compareLanes build BitVec.slt b a j
  | ge => exact testBit_compareLanes build BitVec.sle b a j

end VectorTraits

/-! ### The kernels -/

namespace VectorKernels

/-- `mask[i] = value` -/
def storeAt (mask : List Bool) (i : Nat) (value : Bool) : Outcome (List Bool) :=
  if i < mask.length then .ok (mask.set i value) else .error .outOfBounds

/-- `mask[i + j] = (m >> j) & 1` for every lane. -/
def storeLanes {v : Nat} (width : Nat) (m : BitVec v) (i : Nat) (mask : List Bool) : Outcome (List Bool) :=
  (List.range width).foldlM (fun mask j => storeAt mask (i + j) (VectorTraits.testBit m j)) mask

/-- The loop over the full vectors. -/
def vectorLoop (build : Build)
    (compare : VectorTraits.Vec build t → VectorTraits.Vec build t → VectorTraits.Mask build t)
    (data : List (Native t)) (value : Native t) (count : Nat) (mask : List Bool) : Outcome (List Bool) :=
  let width := VectorTraits.width build t
  (List.range (count / width)).foldlM (fun mask b => do
    let vdata ← VectorTraits.load width data (b * width)
    storeLanes width (compare vdata (Lanes.set1 value)) (b * width) mask) mask

/-- The loop over the values from `start` on. -/
def scalarLoop (holds : Native t → Native t → Bool) (data : List (Native t)) (value : Native t) (start count : Nat)
    (mask : List Bool) : Outcome (List Bool) :=
  (List.range' start (count - start)).foldlM (fun mask i => do
    storeAt mask i (holds (← orFault .outOfBounds data[i]?) value)) mask

end VectorKernels

open VectorKernels

namespace Scanner.VectorFilter

/-- A kernel of integers, as its build has it. -/
def into (build : Build) (holds : Native t → Native t → Bool) (data : List (Native t)) (value : Native t)
    (mask : List Bool) (count : Nat) : Outcome (List Bool) :=
  match build with
  | .scalar => scalarLoop holds data value 0 count mask
  | .avx512 => do
    let mask ←
      if t.typeSize = 4 ∨ t.typeSize = 8 then
        vectorLoop .avx512 (VectorTraits.compareLanes .avx512 holds) data value count mask
      else .ok mask
    scalarLoop holds data value (count / 16 * 16) count mask

def equalInto (build : Build) (data : List (Native t)) (value : Native t) (mask : List Bool) (count : Nat) :
    Outcome (List Bool) := into build (· == ·) data value mask count

def lessThanInto (build : Build) (data : List (Native t)) (value : Native t) (mask : List Bool) (count : Nat) :
    Outcome (List Bool) := into build BitVec.slt data value mask count

def lessEqualInto (build : Build) (data : List (Native t)) (value : Native t) (mask : List Bool) (count : Nat) :
    Outcome (List Bool) := into build BitVec.sle data value mask count

end Scanner.VectorFilter

def VectorOps.filter (build : Build) (pred : PredicateType) (data : List (Native t)) (value : Native t)
    (mask : List Bool) (n : Nat) : Outcome (List Bool) := do
  let mask ← vectorLoop build (VectorTraits.laneMask build pred) data value n mask
  scalarLoop (compares pred) data value (n - n % VectorTraits.width build t) n mask

def SimdPredicateEvaluator.evaluateVector (build : Build) (pred : PredicateType) (data : List (Native t))
    (value : Native t) (mask : List Bool) (count : Nat) : Outcome (List Bool) := do
  let mask ← vectorLoop build (VectorTraits.laneMask build pred) data value count mask
  scalarLoop (compares pred) data value (count - count % VectorTraits.width build t) count mask

/-! ### One store a position -/

namespace VectorKernels

/-- Stores of values that depend on the position only leave those values. -/
theorem foldlM_storeAt {p : Nat → Bool} (order : List Nat) {mask : List Bool} (h : ∀ i ∈ order, i < mask.length) :
    ∃ mask', order.foldlM (fun mask i => storeAt mask i (p i)) mask = .ok mask' ∧ mask'.length = mask.length ∧
      ∀ j, mask'[j]? = if j ∈ order then some (p j) else mask[j]? := by
  induction order generalizing mask with
  | nil => exact ⟨mask, rfl, rfl, fun j => rfl⟩
  | cons i rest ih =>
    have hi : i < mask.length := h i List.mem_cons_self
    have hlen : (mask.set i (p i)).length = mask.length := List.length_set
    have hrest : ∀ j ∈ rest, j < (mask.set i (p i)).length := fun j hj => by
      rw [hlen]
      exact h j (List.mem_cons_of_mem i hj)
    obtain ⟨mask', hloop, hsame, hget⟩ := ih hrest
    refine ⟨mask', ?_, hsame.trans hlen, fun j => ?_⟩
    · rw [List.foldlM_cons, storeAt, if_pos hi, bind_ok, hloop]
    · rw [hget, List.getElem?_set]
      by_cases hij : i = j
      · subst hij
        simp [hi]
      · simp [hij, Ne.symm hij]

/-- Stores at all positions below `count`, and at no other, in any order. -/
theorem foldlM_storeAt_ok {p : Nat → Bool} {order : List Nat} {count : Nat} (hmem : ∀ i, i ∈ order ↔ i < count)
    {mask : List Bool} (hmask : count ≤ mask.length) :
    order.foldlM (fun mask i => storeAt mask i (p i)) mask = .ok ((List.range count).map p ++ mask.drop count) := by
  have hin : ∀ i ∈ order, i < mask.length := fun i hi => ((hmem i).mp hi).trans_le hmask
  obtain ⟨mask', hloop, -, hget⟩ := foldlM_storeAt (p := p) order hin
  rw [hloop]
  refine congrArg _ (List.ext_getElem? fun j => ?_)
  rw [hget]
  by_cases hj : j < count
  · rw [if_pos ((hmem j).mpr hj), List.getElem?_append_left (by simpa using hj), getElem?_map_range hj]
  · rw [if_neg (fun hin => hj ((hmem j).mp hin)), List.getElem?_append_right (by simpa using hj), List.length_map,
      List.length_range, List.getElem?_drop, Nat.add_sub_cancel' (Nat.le_of_not_lt hj)]

section Loops
variable {data : List (Native t)} {count : Nat} (hdata : count ≤ data.length) {value : Native t}
include hdata

theorem scalarLoop_eq (holds : Native t → Native t → Bool) (start : Nat) (mask : List Bool) :
    scalarLoop holds data value start count mask =
      (List.range' start (count - start)).foldlM (fun mask i => storeAt mask i (holds (data.getD i 0) value)) mask := by
  refine foldlM_congr (fun i hi mask => ?_) mask
  have hlt : i < data.length := by
    have := List.mem_range'_1.mp hi
    omega
  rw [List.getD_eq_getElem?_getD, List.getElem?_eq_getElem hlt, orFault_some, bind_ok, Option.getD_some]

/-- A vector loop whose mask bits tell the comparisons of the lanes. -/
theorem vectorLoop_eq (build : Build) {holds : Native t → Native t → Bool}
    {compare : VectorTraits.Vec build t → VectorTraits.Vec build t → VectorTraits.Mask build t}
    (hbit : ∀ a b (j : Fin (VectorTraits.width build t)), VectorTraits.testBit (compare a b) j = holds (a j) (b j))
    (mask : List Bool) :
    vectorLoop build compare data value count mask =
      (List.range (count / VectorTraits.width build t * VectorTraits.width build t)).foldlM
        (fun mask i => storeAt mask i (holds (data.getD i 0) value)) mask := by
  rw [← foldlM_whole_blocks]
  refine foldlM_congr (fun b hb mask => ?_) mask
  have hfull : (b + 1) * VectorTraits.width build t ≤ count / VectorTraits.width build t * VectorTraits.width build t :=
    Nat.mul_le_mul_right _ (List.mem_range.mp hb)
  have hcount := Nat.div_mul_le_self count (VectorTraits.width build t)
  rw [Nat.succ_mul] at hfull
  rw [VectorTraits.load_ok (by omega), bind_ok, storeLanes]
  refine foldlM_congr (fun j hj mask => ?_) mask
  rw [hbit _ _ ⟨j, List.mem_range.mp hj⟩]
  rfl

/-- A vector loop and a scalar loop that starts where the vectors end, or before. -/
theorem loops_ok (build : Build) {holds : Native t → Native t → Bool}
    {compare : VectorTraits.Vec build t → VectorTraits.Vec build t → VectorTraits.Mask build t}
    (hbit : ∀ a b (j : Fin (VectorTraits.width build t)), VectorTraits.testBit (compare a b) j = holds (a j) (b j))
    {start : Nat} (hstart : start ≤ count / VectorTraits.width build t * VectorTraits.width build t)
    {mask : List Bool} (hmask : count ≤ mask.length) :
    (vectorLoop build compare data value count mask >>= scalarLoop holds data value start count) =
      .ok ((data.take count).map (holds · value) ++ mask.drop count) := by
  have hloops : (vectorLoop build compare data value count mask >>= scalarLoop holds data value start count) =
      (List.range (count / VectorTraits.width build t * VectorTraits.width build t) ++
        List.range' start (count - start)).foldlM
          (fun mask i => storeAt mask i (holds (data.getD i 0) value)) mask := by
    rw [vectorLoop_eq hdata build hbit, List.foldlM_append]
    congr 1
    funext mask
    exact scalarLoop_eq hdata holds start mask
  have hmem : ∀ i, i ∈ List.range (count / VectorTraits.width build t * VectorTraits.width build t) ++
      List.range' start (count - start) ↔ i < count := by
    intro i
    have := Nat.div_mul_le_self count (VectorTraits.width build t)
    rw [List.mem_append, List.mem_range, List.mem_range'_1]
    omega
  rw [hloops, foldlM_storeAt_ok hmem hmask, map_getD_range hdata (holds · value)]

end Loops

end VectorKernels

section Integers
variable (ht : t.isInteger = true) (build : Build) {data : List (Native t)} {mask : List Bool} {count : Nat}
  (hdata : count ≤ data.length) (hmask : count ≤ mask.length) (value : Native t)
include ht hdata

/-- A kernel of `VectorFilter` stores in the order the scan counts on. -/
theorem Scanner.VectorFilter.into_eq (holds : Native t → Native t → Bool) (mask : List Bool) :
    VectorFilter.into build holds data value mask count =
      (VectorFilter.storeOrder build t count).foldlM
        (fun mask i => storeAt mask i (holds (data.getD i 0) value)) mask := by
  cases build with
  | scalar =>
    rw [VectorFilter.into, scalarLoop_eq hdata, Nat.sub_zero, ← List.range_eq_range']
    rfl
  | avx512 =>
    have hbit := @VectorTraits.testBit_compareLanes t .avx512 holds
    have hsize : t.typeSize = 4 ∨ t.typeSize = 8 := DataType.typeSize_of_isInteger ht
    have hlanes : VectorFilter.storeOrder .avx512 t count =
        List.range (count / VectorTraits.width .avx512 t * VectorTraits.width .avx512 t) ++
          List.range' (count / 16 * 16) (count - count / 16 * 16) := by
      rcases DataType.eq_of_isInteger ht with rfl | rfl
      · exact congrArg (· ++ _) (VectorFilter.lanes_eq 16 count)
      · exact congrArg (· ++ _) (VectorFilter.lanes_eq 8 count)
    rw [VectorFilter.into, if_pos hsize, vectorLoop_eq hdata .avx512 hbit, hlanes, List.foldlM_append]
    congr 1
    funext mask
    exact scalarLoop_eq hdata holds _ mask

include hmask

theorem Scanner.VectorFilter.into_ok (holds : Native t → Native t → Bool) :
    VectorFilter.into build holds data value mask count =
      .ok ((data.take count).map (holds · value) ++ mask.drop count) := by
  rw [VectorFilter.into_eq ht build hdata, foldlM_storeAt_ok (fun i => VectorFilter.mem_storeOrder ht) hmask,
    map_getD_range hdata (holds · value)]

theorem VectorOps.filter_ok (op : CompareOp) :
    VectorOps.filter build (predicateType op) data value mask count =
      .ok ((data.take count).map (fun x => op.holds x.toInt value.toInt) ++ mask.drop count) := by
  have hholds : compares (predicateType op) = fun x value : Native t => op.holds x.toInt value.toInt := by
    funext x value
    exact compares_int ht op x value
  have hstart : count - count % VectorTraits.width build t =
      count / VectorTraits.width build t * VectorTraits.width build t := by
    have := Nat.div_add_mod' count (VectorTraits.width build t)
    omega
  rw [VectorOps.filter, hholds, hstart]
  exact loops_ok hdata build (VectorTraits.testBit_laneMask build op) le_rfl hmask

end Integers

/-- The stores of a kernel are those of the scan's model of it. -/
theorem Scanner.VectorFilter.into_kernel (ht : t.isInteger = true) (build : Build) (data : List (Native t))
    (value : Native t) (holds : Native t → Native t → Bool) (mask : List Bool) :
    VectorFilter.into build holds data value mask data.length =
      (VectorFilter.kernel build t data (holds · value)).foldlM (fun mask s => storeAt mask s.1 s.2) mask := by
  rw [VectorFilter.into_eq ht build le_rfl, VectorFilter.kernel, List.foldlM_map]

/-- What a filter is to leave in the mask: the comparisons of the values, and behind them what was
there. -/
def verdicts (op : CompareOp) (data : List (Native t)) (value : Native t) (mask : List Bool) (count : Nat) :
    List Bool :=
  (data.take count).map (fun x => op.holds x.toInt value.toInt) ++ mask.drop count

/-- **Every kernel of either build leaves the comparisons of the values.** A mask may end where
the values do, so no store is behind them. -/
theorem kernels_compare (ht : t.isInteger = true) (build : Build) {data : List (Native t)} {mask : List Bool}
    {count : Nat} (hdata : count ≤ data.length) (hmask : count ≤ mask.length) (value : Native t) :
    (VectorFilter.equalInto build data value mask count = .ok (verdicts .eq data value mask count) ∧
      VectorFilter.lessThanInto build data value mask count = .ok (verdicts .lt data value mask count) ∧
      VectorFilter.lessEqualInto build data value mask count = .ok (verdicts .le data value mask count)) ∧
    ∀ op, VectorOps.filter build (predicateType op) data value mask count = .ok (verdicts op data value mask count) ∧
      SimdPredicateEvaluator.evaluateVector build (predicateType op) data value mask count =
        .ok (verdicts op data value mask count) := by
  have hequal : ∀ x : Native t, (x == value) = CompareOp.eq.holds x.toInt value.toInt := fun x => by
    rw [Bool.eq_iff_iff, beq_iff_eq, ← BitVec.toInt_inj, CompareOp.holds, decide_eq_true_iff]
  refine ⟨⟨?_, ?_, ?_⟩, fun op => ⟨?_, ?_⟩⟩
  · rw [VectorFilter.equalInto, VectorFilter.into_ok ht build hdata hmask, verdicts, funext hequal]
  · exact VectorFilter.into_ok ht build hdata hmask value BitVec.slt
  · exact VectorFilter.into_ok ht build hdata hmask value BitVec.sle
  · exact VectorOps.filter_ok ht build hdata hmask value op
  · exact VectorOps.filter_ok ht build hdata hmask value op

/-- Nine values of eight bytes: a vector, and a rest that begins before its end. -/
theorem nineValues_compared :
    VectorFilter.lessThanInto .avx512 ([5, 1, 9, 2, 8, 3, 7, 4, 6] : List (Native .int64)) 5
        (List.replicate 10 true) 9 =
      .ok [false, true, false, true, false, true, false, true, false, true] :=
  (@kernels_compare .int64 rfl .avx512 [5, 1, 9, 2, 8, 3, 7, 4, 6] (List.replicate 10 true) 9 (by decide) (by decide)
    5).1.2.1.trans rfl

end ColumnarStore
