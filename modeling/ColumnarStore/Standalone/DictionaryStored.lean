import ColumnarStore.Standalone.Dictionary
import ColumnarStore.Foundation.Checked

/-! The stored form of the standalone dictionary encoder.

The dictionary, then the width of an index in bits, then every index in the one, two or
four bytes that hold the width. The number of indices is not stored: the reader takes
it from the size it is given. -/
namespace ColumnarStore.Standalone.Dictionary
open Foundation
open Encoding.Dictionary (indexSize indexBits_le_iff length_dictionary)
variable {t : DataType}

namespace DictionaryEncoder

/-! ### Writing -/

/-- `while ((1U << index_bits) < dict_size && index_bits < 32) ++index_bits`: the shift comes
before the test of its width. -/
def indexBitsLoop (dictSize : BitVec 32) : Nat → Nat → Outcome Nat
  | 0, _ => .error .diverges
  | fuel + 1, indexBits => do
    let entries ← checkedShiftLeft .shiftWidth 1#32 indexBits
    if entries < dictSize ∧ indexBits < 32 then indexBitsLoop dictSize fuel (indexBits + 1) else return indexBits

/-- The 33rd test is of a width of 32. -/
def indexBits (dictSize : BitVec 32) : Outcome Nat := indexBitsLoop dictSize 33 0

/-- The low bytes of every index. -/
def writeIndices (size : Nat) (indices : List (BitVec 32)) : List UInt8 :=
  storeWords size (indices.map fun i => i.setWidth (8 * size))

def write (enc : DictionaryEncoder t) : Outcome (List UInt8) := do
  let dictSize := BitVec.ofNat 32 enc.dictionary.length
  let bits ← indexBits dictSize
  return storeWord 4 dictSize ++ storeWords t.typeSize enc.dictionary ++ storeWord 1 (BitVec.ofNat 8 bits) ++
    writeIndices (indexSize bits) enc.indices

/-! ### Reading -/

/-- As many indices as `remaining` bytes make up. -/
def readIndices (size remaining : Nat) (ptr : List UInt8) : Outcome (List (BitVec 32)) := do
  let indices ← orFault .outOfBounds (loadWords size (remaining / size) ptr)
  return indices.map fun i => i.setWidth 32

def read (data : List UInt8) (size : Nat) : Outcome (DictionaryEncoder t) := do
  let dictSize ← orFault .outOfBounds (loadWord 4 data)
  let ptr := data.drop 4
  let dictionary ← orFault .outOfBounds (loadWords t.typeSize dictSize.toNat ptr)
  let ptr := ptr.drop (t.typeSize * dictSize.toNat)
  let valueToId ← number dictionary fun _ => none
  let bits ← orFault .outOfBounds (loadWord 1 ptr)
  let ptr := ptr.drop 1
  let consumed := 4 + t.typeSize * dictSize.toNat + 1
  -- A size below what is consumed already wraps to more indices than memory holds.
  let remaining ← if consumed ≤ size then .ok (size - consumed) else .error .outOfBounds
  let indices ← readIndices (indexSize bits.toNat) remaining ptr
  return {dictionary, indices, valueToId}

/-! ### The width of an index -/

/-- Up to 2^31 entries every shift is by less than 32, and the loop is that of the codec. -/
theorem indexBitsLoop_eq {dictSize : BitVec 32} (hdict : dictSize.toNat ≤ 2 ^ 31) {fuel bits : Nat}
    (hbits : bits < 32) (hfuel : bits + fuel = 32) :
    indexBitsLoop dictSize (fuel + 1) bits = .ok (Encoding.Dictionary.indexBitsLoop dictSize.toNat fuel bits) := by
  induction fuel generalizing bits with
  | zero => omega
  | succ fuel ih =>
    have hpow : 2 ^ bits < 2 ^ 32 := Nat.pow_lt_pow_right (by decide) hbits
    have hentries : 1#32 <<< bits < dictSize ↔ 2 ^ bits < dictSize.toNat := by
      rw [BitVec.lt_def, BitVec.toNat_shiftLeft, Nat.shiftLeft_eq, BitVec.toNat_ofNat,
        Nat.mod_eq_of_lt (by decide : 1 < 2 ^ 32), Nat.one_mul, Nat.mod_eq_of_lt hpow]
    rw [indexBitsLoop, checkedShiftLeft_ok _ _ hbits, bind_ok, Encoding.Dictionary.indexBitsLoop]
    by_cases hmore : 2 ^ bits < dictSize.toNat
    · have hnext : bits < 31 := (Nat.pow_lt_pow_iff_right (by decide : 1 < 2)).mp (hmore.trans_le hdict)
      rw [if_pos ⟨hentries.mpr hmore, hbits⟩, if_pos hmore]
      exact ih (by omega) (by omega)
    · rw [if_neg fun h => hmore (hentries.mp h.1), if_neg hmore, pure_eq_ok]

theorem indexBits_eq {dictSize : BitVec 32} (hdict : dictSize.toNat ≤ 2 ^ 31) :
    indexBits dictSize = .ok (Encoding.Dictionary.indexBits dictSize.toNat) :=
  indexBitsLoop_eq hdict (by decide) rfl

/-- The bytes of an index hold every position of the dictionary. -/
theorem le_indexSize {entries : Nat} (hentries : entries ≤ 2 ^ 31) :
    0 < indexSize (Encoding.Dictionary.indexBits entries) ∧
      entries ≤ 2 ^ (8 * indexSize (Encoding.Dictionary.indexBits entries)) := by
  unfold indexSize
  split
  · next h => exact ⟨by decide, (indexBits_le_iff (by decide)).mp h⟩
  · split
    · next h => exact ⟨by decide, (indexBits_le_iff (by decide)).mp h⟩
    · exact ⟨by decide, hentries.trans (by decide)⟩

/-! ### There and back -/

theorem length_writeIndices (size : Nat) (indices : List (BitVec 32)) :
    (writeIndices size indices).length = size * indices.length := by
  rw [writeIndices, length_storeWords, List.length_map]

theorem readIndices_writeIndices {size : Nat} (hsize : 0 < size) {indices : List (BitVec 32)}
    (hfits : ∀ i ∈ indices, i.toNat < 2 ^ (8 * size)) :
    readIndices size (size * indices.length) (writeIndices size indices) = .ok indices := by
  have hload := loadWords_storeWords_self size (indices.map fun i => i.setWidth (8 * size))
  have hrestored : ∀ i ∈ indices, (i.setWidth (8 * size)).setWidth 32 = i := by
    intro i hi
    refine BitVec.eq_of_toNat_eq ?_
    rw [BitVec.toNat_setWidth, BitVec.toNat_setWidth, Nat.mod_eq_of_lt (hfits i hi), Nat.mod_eq_of_lt i.isLt]
  rw [List.length_map] at hload
  rw [readIndices, writeIndices, Nat.mul_div_cancel_left _ hsize, hload, orFault_some, bind_ok, pure_eq_ok,
    List.map_map]
  exact congrArg _ ((List.map_congr_left hrestored).trans (List.map_id _))

/-- The bytes of an encoder of at most 2^31 entries. -/
theorem write_eq {enc : DictionaryEncoder t} (hdict : enc.dictionary.length ≤ 2 ^ 31) :
    write enc = .ok (storeWord 4 (BitVec.ofNat 32 enc.dictionary.length) ++ storeWords t.typeSize enc.dictionary ++
      storeWord 1 (BitVec.ofNat 8 (Encoding.Dictionary.indexBits enc.dictionary.length)) ++
      writeIndices (indexSize (Encoding.Dictionary.indexBits enc.dictionary.length)) enc.indices) := by
  have hcount : (BitVec.ofNat 32 enc.dictionary.length).toNat = enc.dictionary.length := toNat_ofNat_of_lt (by omega)
  rw [write, indexBits_eq (by rwa [hcount]), hcount, bind_ok, pure_eq_ok]

/-- What is written is read back, the map as the inverse of the dictionary. -/
theorem read_write {enc : DictionaryEncoder t} (hnodup : enc.dictionary.Nodup) (hdict : enc.dictionary.length ≤ 2 ^ 31)
    (hindices : ∀ i ∈ enc.indices, i.toNat < enc.dictionary.length) {bytes : List UInt8} (h : write enc = .ok bytes) :
    read bytes bytes.length = .ok {enc with valueToId := numbersOver (fun _ => none) enc.dictionary} := by
  obtain ⟨hpos, hroom⟩ := le_indexSize hdict
  have hcount : (BitVec.ofNat 32 enc.dictionary.length).toNat = enc.dictionary.length := toNat_ofNat_of_lt (by omega)
  have hbits : (BitVec.ofNat 8 (Encoding.Dictionary.indexBits enc.dictionary.length)).toNat =
      Encoding.Dictionary.indexBits enc.dictionary.length :=
    toNat_ofNat_of_lt ((Encoding.Dictionary.indexBitsLoop_bounded _ 32 0).trans_lt (by decide))
  have hdrop : ∀ rest,
      (storeWords t.typeSize enc.dictionary ++ rest).drop (t.typeSize * enc.dictionary.length) = rest :=
    fun rest => List.drop_left' (length_storeWords ..)
  rw [write_eq hdict] at h
  cases h
  generalize Encoding.Dictionary.indexBits enc.dictionary.length = bits at hpos hroom hbits ⊢
  have hread := readIndices_writeIndices hpos fun i hi => (hindices i hi).trans_le hroom
  have hconsumed : 4 + t.typeSize * enc.dictionary.length + 1 ≤
      4 + (t.typeSize * enc.dictionary.length + (1 + indexSize bits * enc.indices.length)) := by omega
  have hremaining : 4 + (t.typeSize * enc.dictionary.length + (1 + indexSize bits * enc.indices.length)) -
      (4 + t.typeSize * enc.dictionary.length + 1) = indexSize bits * enc.indices.length := by omega
  simp only [read, List.append_assoc, loadWord_storeWord, orFault_some, bind_ok, hcount,
    List.drop_left' (length_storeWord 4 _), loadWords_storeWords, hdrop, number_eq hnodup (by omega : _ < 2 ^ 32),
    List.drop_left' (length_storeWord 1 _), hbits, List.length_append, length_storeWord, length_storeWords,
    length_writeIndices, if_pos hconsumed, hremaining, hread, pure_eq_ok]

/-- Reading what is written restores the dictionary and the indices, with the inverse of
the dictionary as the map. -/
def Restored (enc : DictionaryEncoder t) : Prop :=
  ∃ bytes restored, write enc = .ok bytes ∧ read bytes bytes.length = .ok restored ∧
    restored.dictionary = enc.dictionary ∧ restored.indices = enc.indices ∧
    Numbers restored.valueToId restored.dictionary

theorem restored_of_numbers {enc : DictionaryEncoder t} (h : Numbers enc.valueToId enc.dictionary)
    (hdict : enc.dictionary.length ≤ 2 ^ 31) {values : List (Native t)}
    (hdecode : decode enc enc.indices = .ok values) :
    Restored enc := by
  have hindices : ∀ i ∈ enc.indices, i.toNat < enc.dictionary.length := by
    intro i hi
    obtain ⟨k, hk, rfl⟩ := List.getElem_of_mem hi
    have hall := decode_eq_ok.mp hdecode
    have hentry := (List.forall₂_iff_get.mp hall).2 k hk (hall.length_eq ▸ hk)
    exact (List.getElem?_eq_some_iff.mp hentry).1
  have hnumbers := (numbers_numbersOver_iff (fun _ => (none : Option (BitVec 32))) h.nodup
    (hdict.trans (by decide))).mpr fun _ _ => rfl
  exact ⟨_, _, write_eq hdict, read_write h.nodup hdict hindices (write_eq hdict), rfl, rfl, hnumbers⟩

/-- **An encoder built by one call on at most 2^31 distinct values is restored.** -/
theorem restored_run (ht : t.isInteger = true) (call : Call t) (hlen : call.values.dedup.length ≤ 2 ^ 31) :
    ∃ enc, call.run {} = .ok enc ∧ Restored enc := by
  have hfresh : Numbers ({} : DictionaryEncoder t).valueToId ({} : DictionaryEncoder t).dictionary := Numbers.empty
  cases call with
  | build values =>
    obtain ⟨hnumbers, hmem, hdecode⟩ := build_spec (hlen.trans (by decide)) hfresh (List.nil_subset _)
      (List.Subset.refl values)
    have hsub : (build {} values).dictionary ⊆ values := by
      intro u hu
      rcases (hmem u).mp hu with hu | hu
      · cases hu
      · exact hu
    exact ⟨_, rfl, restored_of_numbers hnumbers ((length_le_distinct hnumbers.nodup hsub).trans hlen) hdecode⟩
  | buildSorted values =>
    have hlen' : values.dedup.length < 2 ^ 32 := hlen.trans_lt (by decide)
    have hnumbers := (numbers_buildSorted_iff ht hfresh (Nat.zero_le _) hlen').mpr (List.nil_subset _)
    refine ⟨_, buildSorted_eq ht {} hlen', restored_of_numbers hnumbers ?_ (decode_sorted ht {} hlen')⟩
    show (Encoding.Dictionary.dictionary t values).length ≤ 2 ^ 31
    rwa [length_dictionary ht]

theorem restored_run_int64 :
    ([3, -1, 3] : List (Native .int64)).dedup.length ≤ 2 ^ 31 ∧
      ∃ enc, Call.run {} (.buildSorted [3, -1, 3] : Call .int64) = .ok enc ∧ Restored enc :=
  ⟨by decide, restored_run (t := .int64) rfl (.buildSorted [3, -1, 3]) (by decide)⟩

end DictionaryEncoder

end ColumnarStore.Standalone.Dictionary
