import ColumnarStore.Standalone.ForAvx512
import ColumnarStore.Standalone.Bitpack

/-! The AVX-512 decoder of the bit-packer.

It takes blocks of 16 fields. Only fields of 32 bits are read with one load and added to the least
value in one instruction; at that width a block begins with a word and its fields are the halves of
eight words. All other fields, and the tail, are read one by one. So unlike its sibling of the
frame-of-reference codec it is right at every width (`decodeAvx512_eq`), and where it reads past
the words, the decoder in blocks of eight does too. -/
namespace ColumnarStore.Standalone.Bitpack
open Foundation Foundation.Packing Encoding
open For (loadRegister)

/-! ### The decoder -/

/-- The 16 fields from the `i`-th on. -/
def vectorBlock (fetch : Words) (minVal : BitVec 32) (mask : BitVec 64) (bits i : Nat) : Outcome (List (BitVec 32)) :=
  let bitStart := i * bits
  let wordStart := bitStart / 64
  let offset := bitStart % 64
  if offset = 0 ∧ bits = 32 then do
    let v ← loadRegister fetch wordStart
    return List.ofFn (Lanes.add (Lanes.split 2 32 v) (Lanes.set1 minVal) : Lanes 16 32)
  else (List.range 16).mapM fun j => unpack fetch minVal mask bits ((i + j) * bits)

/-- `DecodeAvx512_32`, in an AVX-512 build. -/
def decodeAvx512 (data : BitPackedData .int32) (count : Nat) : Outcome (List (Native .int32)) :=
  if count = 0 ∨ data.bits = 0 then .ok (List.replicate count data.minVal)
  else do
    let mask ← fieldMask 64 data.bits
    blocked 16 count (vectorBlock (vectorWords data.packed) data.minVal mask data.bits) fun i =>
      unpack (vectorWords data.packed) data.minVal mask data.bits (i * data.bits)

/-- `DecodeAvx512_64`, whose loop has no blocks. -/
def decodeAvx512Long (data : BitPackedData .int64) (count : Nat) : Outcome (List (Native .int64)) :=
  if count = 0 ∨ data.bits = 0 then .ok (List.replicate count data.minVal)
  else do
    let mask ← fieldMask 64 data.bits
    (List.range count).mapM fun i => unpack (vectorWords data.packed) data.minVal mask data.bits (i * data.bits)

/-! ### Fields of 32 bits -/

/-- A field of 32 bits is a half of a word. -/
theorem unpack_half (fetch : Words) (base : BitVec 32) {mask : BitVec 64} (hmask : IsMask 32 mask) (b j : Nat) :
    unpack fetch base mask 32 ((b * 16 + j) * 32) =
      orFault Fault.outOfBounds (fetch (b * 8 + j / 2)) >>= fun low =>
        .ok (base + low.extractLsb' (32 * (j % 2)) 32) := by
  have hword : (b * 16 + j) * 32 / 64 = b * 8 + j / 2 := by omega
  have hoffset : (b * 16 + j) * 32 % 64 = 32 * (j % 2) := by omega
  have hcut : ∀ low : BitVec 64, (low >>> (32 * (j % 2)) &&& mask).setWidth 32 = low.extractLsb' (32 * (j % 2)) 32 := by
    intro low
    refine BitVec.eq_of_getLsbD_eq fun k hk => ?_
    rw [BitVec.getLsbD_setWidth, BitVec.getLsbD_and, BitVec.getLsbD_ushiftRight, hmask k (by omega),
      BitVec.getLsbD_extractLsb']
    simp [hk]
  have hone : 32 * (j % 2) + 32 ≤ 64 := by omega
  unfold unpack extract window
  simp only [hword, hoffset, if_pos hone]
  cases fetch (b * 8 + j / 2) with
  | none => rfl
  | some low => exact congrArg (fun x => Except.ok (base + x)) (hcut low)

/-- One load holds the 16 fields of a block, or the block ends outside the words. -/
theorem loaded_halves (packed : List (BitVec 64)) (minVal : BitVec 32) {mask : BitVec 64} (hmask : IsMask 32 mask)
    (b : Nat) :
    (loadRegister (vectorWords packed) (b * 8) >>= fun v =>
        Except.ok (List.ofFn (Lanes.add (Lanes.split 2 32 v) (Lanes.set1 minVal) : Lanes 16 32))) =
      (List.range 16).mapM fun j => unpack (vectorWords packed) minVal mask 32 ((b * 16 + j) * 32) := by
  simp only [unpack_half _ _ hmask]
  rcases Nat.lt_or_ge packed.length (b * 8 + 8) with hshort | hlong
  · -- The last word of the block is missing on both sides.
    have hmissing : vectorWords packed (b * 8 + 7) = none := List.getElem?_eq_none (by omega)
    have hword : ∀ k, (∃ x, orFault Fault.outOfBounds (vectorWords packed k) = .ok x) ∨
        orFault Fault.outOfBounds (vectorWords packed k) = .error .outOfBounds := by
      intro k
      cases vectorWords packed k with
      | none => exact .inr rfl
      | some x => exact .inl ⟨x, rfl⟩
    have hload : loadRegister (vectorWords packed) (b * 8) = .error .outOfBounds := by
      unfold loadRegister
      rw [mapM_eq_error (fun k _ => hword (b * 8 + k)) ⟨7, by decide, by rw [hmissing]; rfl⟩, bind_error]
    have hfield : ∀ j, (∃ y, (orFault Fault.outOfBounds (vectorWords packed (b * 8 + j / 2)) >>= fun low =>
          Except.ok (minVal + low.extractLsb' (32 * (j % 2)) 32)) = .ok y) ∨
        (orFault Fault.outOfBounds (vectorWords packed (b * 8 + j / 2)) >>= fun low =>
          Except.ok (minVal + low.extractLsb' (32 * (j % 2)) 32)) = .error .outOfBounds := by
      intro j
      rcases hword (b * 8 + j / 2) with h | h
      · obtain ⟨x, hx⟩ := h
        rw [hx]
        exact .inl ⟨_, rfl⟩
      · rw [h]
        exact .inr rfl
    rw [hload, bind_error, mapM_eq_error (fun j _ => hfield j) ⟨14, by decide, by rw [hmissing]; rfl⟩]
  · rw [For.loadRegister_ok (vectorWords_eq packed) hlong, bind_ok]
    have hread : ∀ j ∈ List.range 16, (orFault Fault.outOfBounds (vectorWords packed (b * 8 + j / 2)) >>= fun low =>
        Except.ok (minVal + low.extractLsb' (32 * (j % 2)) 32)) =
          .ok (minVal + (packed.getD (b * 8 + j / 2) 0).extractLsb' (32 * (j % 2)) 32) := by
      intro j hj
      have hin : b * 8 + j / 2 < packed.length := by
        have := List.mem_range.mp hj
        omega
      rw [vectorWords, List.getElem?_eq_getElem hin, List.getD_eq_getElem _ _ hin]
      rfl
    rw [mapM_ok hread]
    refine congrArg _ (List.ext_getElem (by simp) fun j _ _ => ?_)
    rw [List.getElem_ofFn, List.getElem_map, List.getElem_range]
    exact BitVec.add_comm _ _

/-! ### The decoders side by side -/

theorem vectorBlock_eq (packed : List (BitVec 64)) (minVal : BitVec 32) {bits : Nat} {mask : BitVec 64}
    (hmask : IsMask bits mask) (b : Nat) :
    vectorBlock (vectorWords packed) minVal mask bits (b * 16) =
      (List.range 16).mapM fun j => unpack (vectorWords packed) minVal mask bits ((b * 16 + j) * bits) := by
  unfold vectorBlock
  by_cases hwide : bits = 32
  · subst hwide
    have hstart : b * 16 * 32 / 64 = b * 8 := by omega
    have hoffset : b * 16 * 32 % 64 = 0 := by omega
    simp only [hstart, hoffset, and_self, if_true, pure_eq_ok]
    exact loaded_halves packed minVal hmask b
  · exact if_neg fun h => hwide h.2

/-- Fields of 32-bit values: the blocks of 16 are what the blocks of eight are. -/
theorem decodeAvx512_eq_decodeAvx2 (data : BitPackedData .int32) (count : Nat) :
    decodeAvx512 data count = decodeAvx2 data count := by
  unfold decodeAvx512 decodeAvx2
  split
  · rfl
  rcases Nat.lt_or_ge 64 data.bits with hover | hbits
  · have hshift : fieldMask 64 data.bits = .error .shiftWidth := by
      rw [fieldMask, if_neg (by omega), checkedShiftLeft, if_pos hover.le, bind_error]
    rw [hshift, bind_error, bind_error]
  · obtain ⟨mask, hok, hmask⟩ := fieldMask_wide hbits
    rw [hok, bind_ok, bind_ok]
    have hwide := blocked_eq_mapM 16 count _ (fun i => unpack (vectorWords data.packed) data.minVal mask data.bits
      (i * data.bits)) fun b => vectorBlock_eq data.packed data.minVal hmask b
    have hnarrow := blocked_eq_mapM 8 count (fun i => (List.range 8).mapM fun j =>
      unpack (vectorWords data.packed) data.minVal mask data.bits ((i + j) * data.bits)) (fun i =>
        unpack (vectorWords data.packed) data.minVal mask data.bits (i * data.bits)) fun b => rfl
    exact hwide.trans hnarrow.symm

/-- A position that is multiplied and one that runs along are the same. -/
theorem decodeAvx512Long_eq_decode (data : BitPackedData .int64) (count : Nat) :
    decodeAvx512Long data count = decode data count := by
  unfold decodeAvx512Long decode
  split
  · rfl
  · refine congrArg _ (funext fun mask => ?_)
    simp only [fieldsFrom_eq, Nat.zero_add]
    exact congrArg (fun mask => (List.range count).mapM fun i =>
      unpack (vectorWords data.packed) data.minVal mask data.bits (i * data.bits)) (BitVec.setWidth_eq mask).symm

/-- **In an AVX-512 build `DecodeAvx512` does what the other decoders of the same type do, `DecodeAvx2` for
32-bit values and `Decode` for 64-bit ones, whatever the width, the words and the count: the same values,
and the same fault where they cannot read them.** -/
theorem bitpack_avx512_agrees :
    (∀ (data : BitPackedData .int32) (count : Nat), decodeAvx512 data count = decodeAvx2 data count) ∧
      ∀ (data : BitPackedData .int64) (count : Nat), decodeAvx512Long data count = decode data count :=
  ⟨decodeAvx512_eq_decodeAvx2, decodeAvx512Long_eq_decode⟩

end ColumnarStore.Standalone.Bitpack
