import ColumnarStore.BloomFilter
import ColumnarStore.Foundation.Blocks
import ColumnarStore.Standalone.Extraction

/-! The batch test of an AVX-512 build.

The values are tested eight at a time, with a bit for each in a mask that loses the bits
of the values found missing. The hashes are not those of `Add`: the `h`-th is taken with
`h` times the first seed, so a whole block is tested on other bits than its values set. -/
namespace ColumnarStore.BloomFilter
open Foundation Standalone
open Blocks (map_getD_range)

/-! ### The batch -/

/-- The `h`-th hash of the batch. -/
def batchHash (val : BitVec 64) (h : Nat) : BitVec 64 :=
  murmurHash64 val (BitVec.ofNat 64 h * 0x9e3779b97f4a7c15)

def batchBit (numBits : Nat) (val : BitVec 64) (h : Nat) : Nat := (batchHash val h).toNat % numBits

/-- `bits_[bit / 64] & (1ULL << (bit % 64))`, as far as there is such a bit. -/
def readBit (bf : BloomFilter) (val : BitVec 64) (h : Nat) : Outcome Bool :=
  if bf.numBits = 0 then .error .divisionByZero
  else if bf.bits.length ≤ batchBit bf.numBits val h / 64 then .error .outOfBounds
  else .ok (bf.testBit (batchBit bf.numBits val h))

/-- One hash of one of the eight values; the mask has a bit for each. -/
def testLane (bf : BloomFilter) (vals : List (BitVec 64)) (h : Nat) (allMatch : BitVec 8) (j : Nat) :
    Outcome (BitVec 8) := do
  let val ← orFault .outOfBounds vals[j]?
  let isSet ← bf.readBit val h
  return if isSet then allMatch else allMatch &&& ~~~(1#8 <<< j)

def testLanes (bf : BloomFilter) (vals : List (BitVec 64)) (h : Nat) (allMatch : BitVec 8) : Outcome (BitVec 8) :=
  (List.range 8).foldlM (bf.testLane vals h) allMatch

/-- The hashes from the `h`-th on, until no value is left. -/
def testRounds (bf : BloomFilter) (vals : List (BitVec 64)) : Nat → Nat → BitVec 8 → Outcome (BitVec 8)
  | 0, _, allMatch => .ok allMatch
  | rounds + 1, h, allMatch => do
    let allMatch ← bf.testLanes vals h allMatch
    if allMatch = 0 then return allMatch else testRounds bf vals rounds (h + 1) allMatch

def testBlock (bf : BloomFilter) (values : List (BitVec 64)) (i : Nat) : Outcome (List Bool) := do
  let vals ← (List.range 8).mapM fun j => orFault .outOfBounds values[i + j]?
  let allMatch ← bf.testRounds vals bf.numHashes 0 0xFF
  return List.ofFn fun j : Fin 8 => (allMatch >>> j.val &&& 1#8) != 0

/-- `MightContainBatchAvx512` over all the values, which are 64-bit keys as they are. -/
def mightContainBatchAvx512 (bf : BloomFilter) (values : List (BitVec 64)) : Outcome (List Bool) :=
  blocked 8 values.length (testBlock bf values) fun i => do
    let val ← orFault .outOfBounds values[i]?
    bf.mightContain val

/-! ### What a block tests -/

/-- The bits a whole block reads for a value, unless the block is given up before. -/
def batchProbes (numBits numHashes : Nat) (val : BitVec 64) : List Nat :=
  (List.range numHashes).map (batchBit numBits val)

/-- All bits of the batch hashes are set. -/
def batchFinds (bf : BloomFilter) (val : BitVec 64) : Bool :=
  (batchProbes bf.numBits bf.numHashes val).all bf.testBit

/-- All bits that `Add` sets are set. -/
def finds (bf : BloomFilter) (val : BitVec 64) : Bool := (probes bf.numBits bf.numHashes val).all bf.testBit

section Sized
variable {bf : BloomFilter} (hpos : 0 < bf.numBits) (hfits : bf.numBits + 63 < 2 ^ 64)
include hpos hfits

theorem readBit_ok (val : BitVec 64) (h : Nat) : bf.readBit val h = .ok (bf.testBit (batchBit bf.numBits val h)) := by
  have hlt : batchBit bf.numBits val h < bf.numBits := Nat.mod_lt _ hpos
  have hin : ¬ bf.bits.length ≤ batchBit bf.numBits val h / 64 := by
    rw [bf.sized, wordCount_of_lt hfits]
    omega
  rw [readBit, if_neg hpos.ne', if_neg hin]

omit hpos hfits in
theorem getLsbD_cleared (m : BitVec 8) (k : Nat) {j : Nat} (hj : j < 8) :
    (m &&& ~~~(1#8 <<< k)).getLsbD j = (m.getLsbD j && decide (j ≠ k)) := by
  rw [BitVec.getLsbD_and, BitVec.getLsbD_not, BitVec.getLsbD_shiftLeft, BitVec.getLsbD_one]
  congr 1
  rw [Bool.eq_iff_iff]
  simp [hj]
  omega

/-- A round keeps the values whose bit is set. -/
theorem testLanes_ok {vals : List (BitVec 64)} (hvals : vals.length = 8) (h : Nat) (m : BitVec 8) :
    ∃ m', bf.testLanes vals h m = .ok m' ∧ ∀ (j : Nat) (val : BitVec 64), vals[j]? = some val →
      (m'.getLsbD j = true ↔ m.getLsbD j = true ∧ bf.testBit (batchBit bf.numBits val h) = true) := by
  have hstep : ∀ (k : Nat) (m' : BitVec 8), k < 8 →
      (∀ (j : Nat) (val : BitVec 64), vals[j]? = some val → (m'.getLsbD j = true ↔
        m.getLsbD j = true ∧ (j < k → bf.testBit (batchBit bf.numBits val h) = true))) →
      ∃ m₁, bf.testLane vals h m' k = .ok m₁ ∧
        ∀ (j : Nat) (val : BitVec 64), vals[j]? = some val → (m₁.getLsbD j = true ↔
          m.getLsbD j = true ∧ (j < k + 1 → bf.testBit (batchBit bf.numBits val h) = true)) := by
    intro k m' hk hinv
    obtain ⟨x, hx⟩ : ∃ x, vals[k]? = some x := ⟨_, List.getElem?_eq_getElem (by omega)⟩
    refine ⟨_, by rw [testLane, hx, orFault_some, bind_ok, readBit_ok hpos hfits, bind_ok, pure_eq_ok],
      fun j val hval => ?_⟩
    have hj : j < 8 := hvals ▸ (List.getElem?_eq_some_iff.mp hval).1
    by_cases hjk : j = k
    · subst hjk
      rw [hx] at hval
      cases hval
      have hold := hinv j x hx
      rw [imp_iff_right (Nat.lt_succ_self j)]
      cases hset : bf.testBit (batchBit bf.numBits x h) with
      | true => simpa using hold
      | false => simp [getLsbD_cleared _ _ hj]
    · have hsame : (if bf.testBit (batchBit bf.numBits x h) then m' else m' &&& ~~~(1#8 <<< k)).getLsbD j =
          m'.getLsbD j := by
        split
        · rfl
        · rw [getLsbD_cleared _ _ hj, decide_eq_true hjk, Bool.and_true]
      have hlt : j < k + 1 ↔ j < k := by omega
      rw [hsame, hinv j val hval, hlt]
  obtain ⟨m', hrun, hinv⟩ := foldlM_range_invariant (bf.testLane vals h) _ 8 m (fun j val _ => by simp) hstep
  refine ⟨m', hrun, fun j val hval => ?_⟩
  have hj : j < 8 := hvals ▸ (List.getElem?_eq_some_iff.mp hval).1
  rw [hinv j val hval, imp_iff_right hj]

/-- The rounds keep the values whose bits are all set; the mask is left as soon as it is empty. -/
theorem testRounds_ok {vals : List (BitVec 64)} (hvals : vals.length = 8) (rounds h : Nat) (m : BitVec 8) :
    ∃ m', bf.testRounds vals rounds h m = .ok m' ∧ ∀ (j : Nat) (val : BitVec 64), vals[j]? = some val →
      (m'.getLsbD j = true ↔ m.getLsbD j = true ∧
        ∀ k, h ≤ k → k < h + rounds → bf.testBit (batchBit bf.numBits val k) = true) := by
  induction rounds generalizing h m with
  | zero => exact ⟨m, rfl, fun j val _ => ⟨fun hm => ⟨hm, fun k _ _ => by omega⟩, And.left⟩⟩
  | succ rounds ih =>
    obtain ⟨m₁, hround, hfirst⟩ := testLanes_ok hpos hfits hvals h m
    rw [testRounds, hround, bind_ok]
    by_cases hnone : m₁ = 0
    · refine ⟨m₁, by rw [if_pos hnone, pure_eq_ok], fun j val hval => ?_⟩
      have hfalse : m₁.getLsbD j = false := by rw [hnone]; exact BitVec.getLsbD_zero
      refine iff_of_false (by simp [hfalse]) fun h' => ?_
      have hkept := (hfirst j val hval).mpr ⟨h'.1, h'.2 h le_rfl (by omega)⟩
      rw [hfalse] at hkept
      cases hkept
    · obtain ⟨m', hrest, hall⟩ := ih (h + 1) m₁
      refine ⟨m', by rw [if_neg hnone, hrest], fun j val hval => ?_⟩
      rw [hall j val hval, hfirst j val hval, and_assoc]
      refine and_congr_right fun _ => ⟨fun h' k hk hlt => ?_, fun h' => ⟨h' h le_rfl (by omega), ?_⟩⟩
      · rcases hk.eq_or_lt with rfl | hk
        · exact h'.1
        · exact h'.2 k hk (by omega)
      · exact fun k hk hlt => h' k (by omega) (by omega)

omit hfits in
/-- All rounds over a full mask keep the values that the batch hashes find. -/
theorem testRounds_full (hwords : bf.numBits + 63 < 2 ^ 64 ∨ bf.numHashes = 0) {vals : List (BitVec 64)}
    (hvals : vals.length = 8) :
    ∃ m, bf.testRounds vals bf.numHashes 0 0xFF = .ok m ∧
      ∀ (j : Nat) (val : BitVec 64), vals[j]? = some val → m.getLsbD j = bf.batchFinds val := by
  have hfull : ∀ j : Fin 8, (0xFF : BitVec 8).getLsbD j.val = true := by decide
  have hlane : ∀ {j : Nat} {val : BitVec 64}, vals[j]? = some val → (0xFF : BitVec 8).getLsbD j = true :=
    fun hval => hfull ⟨_, hvals ▸ (List.getElem?_eq_some_iff.mp hval).1⟩
  rcases hwords with hfits | hnone
  · obtain ⟨m, hrounds, hmask⟩ := testRounds_ok hpos hfits hvals bf.numHashes 0 0xFF
    refine ⟨m, hrounds, fun j val hval => ?_⟩
    rw [Bool.eq_iff_iff, hmask j val hval, batchFinds, batchProbes, List.all_map, List.all_eq_true,
      and_iff_right (hlane hval)]
    simp only [List.mem_range, Nat.zero_le, forall_const, Nat.zero_add, Function.comp_apply]
  · refine ⟨0xFF, by rw [hnone, testRounds], fun j val hval => ?_⟩
    rw [hlane hval, batchFinds, hnone]
    rfl

end Sized

section Words
variable {bf : BloomFilter} (hpos : 0 < bf.numBits) (hwords : bf.numBits + 63 < 2 ^ 64 ∨ bf.numHashes = 0)
include hpos hwords

/-- A whole block is tested by the batch hashes. -/
theorem testBlock_ok {values : List (BitVec 64)} {i : Nat} (hi : i + 8 ≤ values.length) :
    bf.testBlock values i = .ok (List.ofFn fun j : Fin 8 => bf.batchFinds (values.getD (i + j) 0)) := by
  have hvals : ((List.range 8).map fun j => values.getD (i + j) 0).length = 8 := by
    rw [List.length_map, List.length_range]
  obtain ⟨m, hrounds, hmask⟩ := testRounds_full hpos hwords hvals
  rw [testBlock, mapM_window_ok _ 0 hi, bind_ok, hrounds, bind_ok, pure_eq_ok]
  refine congrArg _ (congrArg _ (funext fun j => ?_))
  rw [shiftRight_and_one_ne_zero]
  refine hmask j _ ?_
  rw [getElem?_map_range j.isLt]

theorem mightContain_eq (val : BitVec 64) : bf.mightContain val = .ok (bf.finds val) := by
  rw [mightContain, boundedProbes_ok hpos hwords, bind_ok, pure_eq_ok, finds]

/-- The batch gives the answers of the single tests when no value of a whole block tells the
hashes apart. -/
theorem batch_eq_ok_iff (values : List (BitVec 64)) :
    bf.mightContainBatchAvx512 values = .ok (values.map bf.finds) ↔
      ∀ val ∈ values.take (values.length / 8 * 8), bf.batchFinds val = bf.finds val := by
  have hget : ∀ {i : Nat} (hi : i < values.length), values.getD i 0 = values[i] := fun hi =>
    List.getD_eq_getElem _ _ hi
  have hmap : values.map bf.finds = (List.range values.length).map fun i => bf.finds (values.getD i 0) := by
    rw [map_getD_range le_rfl, List.take_length]
  have hwhole : values.length / 8 * 8 ≤ values.length := Nat.div_mul_le_self _ _
  rw [hmap, mightContainBatchAvx512, blocked_eq_ok_iff (fun b hb => testBlock_ok hpos hwords (by omega)) fun i hi => by
    rw [List.getElem?_eq_getElem hi, orFault_some, bind_ok, mightContain_eq hpos hwords, hget hi]]
  constructor
  · intro h val hval
    obtain ⟨i, hi, rfl⟩ := List.getElem_of_mem hval
    rw [List.length_take] at hi
    have hlane := h (i / 8) (by omega) ⟨i % 8, Nat.mod_lt i (by decide)⟩
    have hpos : i / 8 * 8 + i % 8 = i := by omega
    simp only [hpos, hget (i := i) (by omega)] at hlane
    rw [List.getElem_take]
    exact hlane.symm
  · intro h b hb j
    have hin : b * 8 + j < values.length / 8 * 8 := by omega
    rw [hget (by omega)]
    refine (h _ (List.mem_of_getElem? (i := b * 8 + j) ?_)).symm
    rw [List.getElem?_take_of_lt hin, List.getElem?_eq_getElem]

end Words

/-! ### The batch against the single tests -/

/-- The batch gives the answer of a single test for every value. -/
def BatchAgrees (bf : BloomFilter) (values : List (BitVec 64)) : Prop :=
  ∃ answers, values.mapM bf.mightContain = .ok answers ∧ bf.mightContainBatchAvx512 values = .ok answers

/-- The bits of the batch hashes of a value are all set just when those that `Add` sets are. -/
def SameAnswer (bf : BloomFilter) (val : BitVec 64) : Prop :=
  (∀ p ∈ batchProbes bf.numBits bf.numHashes val, bf.testBit p = true) ↔
    ∀ p ∈ probes bf.numBits bf.numHashes val, bf.testBit p = true

instance (bf : BloomFilter) (val : BitVec 64) : Decidable (bf.SameAnswer val) :=
  inferInstanceAs (Decidable (_ ↔ _))

theorem sameAnswer_iff (bf : BloomFilter) (val : BitVec 64) : bf.SameAnswer val ↔ bf.batchFinds val = bf.finds val := by
  rw [Bool.eq_iff_iff, batchFinds, finds, List.all_eq_true, List.all_eq_true, SameAnswer]

/-- Hashes are not told apart where all bits are alike, as in a fresh filter, a full one and
one of a single bit. -/
theorem sameAnswer_of_alike {bf : BloomFilter} (hpos : 0 < bf.numBits)
    (halike : ∀ p < bf.numBits, ∀ q < bf.numBits, bf.testBit p = bf.testBit q) (val : BitVec 64) :
    bf.SameAnswer val := by
  have hbit : ∀ bit : Nat → Nat, (∀ h, bit h < bf.numBits) →
      ((∀ p ∈ (List.range bf.numHashes).map bit, bf.testBit p = true) ↔
        ∀ h ∈ List.range bf.numHashes, bf.testBit 0 = true) := by
    intro bit hlt
    rw [List.forall_mem_map]
    exact forall₂_congr fun h _ => by rw [halike _ (hlt h) 0 hpos]
  exact (hbit _ fun _ => Nat.mod_lt _ hpos).trans (hbit _ fun _ => Nat.mod_lt _ hpos).symm

/-- A filter without words faults at the first value it hashes. -/
theorem mightContain_wordless {bf : BloomFilter} (hnone : wordCount bf.numBits = 0) (hhashes : bf.numHashes ≠ 0)
    (val : BitVec 64) (found : Bool) : bf.mightContain val ≠ .ok found := by
  intro h
  obtain ⟨bits, hprobes, -⟩ := bind_eq_ok.mp h
  obtain ⟨-, hin, -⟩ := boundedProbes_eq_ok.mp hprobes
  have hfirst : (hash val 0).toNat % bf.numBits ∈ probes bf.numBits bf.numHashes val :=
    List.mem_map_of_mem (List.mem_range.mpr (Nat.pos_of_ne_zero hhashes))
  have hword := hin _ hfirst
  rw [bf.sized, hnone] at hword
  exact absurd hword (Nat.not_lt_zero _)

/-- **The batch agrees with the single tests exactly when the filter has words for its bits,
hashes nothing or is given nothing, and for every value of a whole block of eight the bits of
the batch hashes are all set just when those that `Add` sets are.** -/
theorem batchAgrees_iff {bf : BloomFilter} (hpos : 1 ≤ bf.numBits) (hlt : bf.numBits < 2 ^ 64)
    (values : List (BitVec 64)) :
    bf.BatchAgrees values ↔ (bf.numBits + 63 < 2 ^ 64 ∨ bf.numHashes = 0 ∨ values = []) ∧
      ∀ val ∈ values.take (values.length / 8 * 8), bf.SameAnswer val := by
  by_cases hwords : bf.numBits + 63 < 2 ^ 64 ∨ bf.numHashes = 0
  · have hsingle : values.mapM bf.mightContain = .ok (values.map bf.finds) :=
      mapM_ok fun val _ => mightContain_eq hpos hwords val
    rw [and_iff_right (or_assoc.mp (.inl hwords)), BatchAgrees, hsingle]
    simp only [sameAnswer_iff, ← batch_eq_ok_iff hpos hwords]
    constructor
    · intro h
      obtain ⟨answers, hanswers, hbatch⟩ := h
      rw [hbatch, ← hanswers]
    · exact fun h => ⟨_, rfl, h⟩
  · obtain ⟨hfits, hhashes⟩ := not_or.mp hwords
    have hnone : wordCount bf.numBits = 0 := wordCount_of_ge hlt (not_lt.mp hfits)
    cases values with
    | nil => exact iff_of_true ⟨[], rfl, rfl⟩ ⟨.inr (.inr rfl), nofun⟩
    | cons val rest =>
      refine iff_of_false (fun h => ?_) fun h => ?_
      · obtain ⟨answers, hanswers, -⟩ := h
        cases mapM_eq_ok.mp hanswers with
        | cons hfirst _ => exact mightContain_wordless hnone hhashes val _ hfirst
      · rcases h.1 with h | h | h
        · exact hfits h
        · exact hhashes h
        · cases h

/-- A filter of 64 bits and one hash to which 5 was added. -/
def holdingFive : BloomFilter := ⟨64, 1, [1#64 <<< 29], rfl⟩

/-- A block without the 5, which is behind it. -/
theorem batchAgrees_behind : holdingFive.BatchAgrees (List.replicate 8 6 ++ [5]) := by
  have hsix : holdingFive.SameAnswer 6 := by decide
  refine (batchAgrees_iff (by decide) (by decide) _).mpr ⟨.inl (by decide), fun val hval => ?_⟩
  rw [List.eq_of_mem_replicate (show val ∈ List.replicate 8 6 from hval)]
  exact hsix

/-- A block of eight times the 5 finds none of them. -/
theorem batchAgrees_not_added :
    (ofSize 64 1).add 5 = .ok holdingFive ∧ ¬ holdingFive.BatchAgrees [5, 5, 5, 5, 5, 5, 5, 5] := by
  refine ⟨rfl, fun h => ?_⟩
  obtain ⟨answers, hsingle, hbatch⟩ := h
  have hfound : [5, 5, 5, 5, 5, 5, 5, 5].mapM holdingFive.mightContain = .ok (List.replicate 8 true) := rfl
  have hlost : holdingFive.mightContainBatchAvx512 [5, 5, 5, 5, 5, 5, 5, 5] = .ok (List.replicate 8 false) := rfl
  cases hfound.symm.trans hsingle
  cases hlost.symm.trans hbatch

end ColumnarStore.BloomFilter
