import ColumnarStore.Standalone.LowHalf

/-! The standalone frame-of-reference codec.

A buffer begins with the least value, the width and the number of values in four bytes;
no decoder uses the number, each is told how many values to write. The words follow,
unless the width is 0. `Decode` cuts a 64-bit mask to the type of the column;
`DecodeAvx2` keeps it whole, and serves the four-byte types only. -/
namespace ColumnarStore.Standalone.For
open Foundation Encoding
open Encoding.Width (ShiftReading)
variable (t : DataType)

/-! ### Encoding -/

/-- The header, and the words at a width other than 0. -/
def appendFields (base : Native t) (bits : Nat) (deltas : List (Native t)) : Outcome (List UInt8) :=
  let header := storeHeader t base bits deltas.length
  if bits = 0 then return header
  else do
    let packed ← packAll bits deltas
    return header ++ storeWords 8 packed

def encode (overshift : Overshift) : List (Native t) → Outcome (List UInt8)
  | [] => .ok []
  | x :: rest => do
    let (minVal, maxVal) := Native.bounds t x rest
    let bits ← searchWidth overshift (8 * t.typeSize) (maxVal - minVal).toNat
    appendFields t minVal bits ((x :: rest).map fun y => y - minVal)

/-! ### Decoding -/

def decode (data : List UInt8) (count : Nat) : Outcome (List (Native t)) :=
  if count = 0 then .ok []
  else do
    let (base, bits, _storedCount, src) ← loadHeader t data
    if bits = 0 then return List.replicate count base
    else do
      let mask ← fieldMask 64 bits
      let mask := (mask.setWidth (8 * t.typeSize)).setWidth 64
      fieldsFrom (unpack (bufferWords src) base mask bits) bits count 0

/-- `DecodeAvx2` for a type of four bytes. -/
def decodeAvx2 (data : List UInt8) (count : Nat) : Outcome (List (Native .int32)) := do
  let (base, bits, _storedCount, src) ← loadHeader .int32 data
  if bits = 0 then return List.replicate count base
  else do
    let mask ← fieldMask 64 bits
    (List.range count).mapM fun i => unpack (bufferWords src) base mask bits (i * bits)

/-! ### Encoded lists -/

section Integers
variable {t : DataType} (ht : t.isInteger = true)
include ht

theorem typeBits_le : 8 * t.typeSize ≤ 64 := by
  rcases DataType.typeSize_of_isInteger ht with h | h <;> omega

omit ht in
theorem decode_zero {data src : List UInt8} {base : Native t} {storedCount : Nat} (count : Nat)
    (hheader : loadHeader t data = .ok (base, 0, storedCount, src)) :
    decode t data count = .ok (List.replicate count base) := by
  by_cases hempty : count = 0
  · rw [decode, if_pos hempty, hempty]
    rfl
  · rw [decode, if_neg hempty, hheader, bind_ok]
    exact if_pos rfl

/-- The scalar decoder reads field by field, with the mask kept whole. -/
theorem decode_fields {data src : List UInt8} {base : Native t} {bits storedCount : Nat} (count : Nat)
    (hheader : loadHeader t data = .ok (base, bits, storedCount, src)) (hpos : 0 < bits) {mask : BitVec 64}
    (hok : fieldMask 64 bits = .ok mask) :
    decode t data count = fieldsFrom (unpack (bufferWords src) base mask bits) bits count 0 := by
  by_cases hempty : count = 0
  · cases hempty
    rfl
  · simp only [decode, hempty, if_false, hheader, bind_ok, hpos.ne', hok, fieldsFrom_eq,
      unpack_setWidth_mask (typeBits_le ht)]

/-- A buffer whose words are all that follows its header is decoded field by field. -/
theorem decode_eq_ok_iff {base : Native t} {bits count : Nat} (hpos : 0 < bits) (hbits : bits ≤ 64)
    {packed : List (BitVec 64)} {mask : BitVec 64} (hok : fieldMask 64 bits = .ok mask) {src : List (Native t)} :
    decode t (storeHeader t base bits count ++ storeWords 8 packed) src.length = .ok src ↔
      ∀ (i : Nat) (y : Native t), src[i]? = some y →
        unpack (bufferWords (storeWords 8 packed)) base mask bits (i * bits) = .ok y := by
  rw [decode_fields ht _ (loadHeader_storeHeader t base (show bits < 2 ^ 8 by omega) count _) hpos hok,
    fieldsFrom_eq_ok]
  exact and_iff_right rfl

/-- A list of one distinct value is its header. -/
theorem restores_of_spread_zero (overshift : Overshift) {x : Native t} {rest : List (Native t)}
    (h : Width.spread t (x :: rest) = 0) : Restores (encode t overshift) (decode t) (x :: rest) := by
  have hsearch := searchWidth_zero overshift (Nat.mul_pos (show 0 < 8 by decide) t.typeSize_pos) (typeBits_le ht)
  refine ⟨storeHeader t (Native.bounds t x rest).1 0 (rest.length + 1), ?_, ?_⟩
  · simp only [encode, toNat_range ht, h, hsearch, bind_ok, appendFields, if_true, pure_eq_ok, List.length_map,
      List.length_cons]
  · have hload := loadHeader_storeHeader t (Native.bounds t x rest).1 (show 0 < 2 ^ 8 by decide) (rest.length + 1) []
    rw [List.append_nil] at hload
    simp only [decode, List.length_cons, Nat.succ_ne_zero, if_false, hload, bind_ok, if_true, pure_eq_ok]
    exact congrArg _ (Width.eq_replicate_of_spread ht h).symm

theorem encode_of_width {overshift : Overshift} {x : Native t} {rest : List (Native t)}
    (hsearch : searchWidth overshift (8 * t.typeSize) (Width.spread t (x :: rest)) =
      .ok (Width.spread t (x :: rest)).size)
    (hne : (Width.spread t (x :: rest)).size ≠ 0) :
    encode t overshift (x :: rest) =
      packAll (Width.spread t (x :: rest)).size ((x :: rest).map fun y => y - (Native.bounds t x rest).1) >>=
        fun packed => .ok (storeHeader t (Native.bounds t x rest).1 (Width.spread t (x :: rest)).size
          (rest.length + 1) ++ storeWords 8 packed) := by
  simp only [encode, toNat_range ht, hsearch, bind_ok, appendFields, if_neg hne, pure_eq_ok, List.length_map,
    List.length_cons]

end Integers

/-! ### Round trips -/

/-- **A list of 32-bit values less than `2^31` apart comes back exactly if its fields stay in the
lower half of the first word.** -/
theorem for_int32_restores_iff {src : List (Native .int32)} (h : Width.SpreadBelow .int32 (2 ^ 31) src) :
    Restores (encode .int32 .stops) (decode .int32) src ↔ InLowerHalf src := by
  cases src with
  | nil => exact iff_of_true ⟨_, rfl, rfl⟩ fun lo hlo => absurd hlo List.not_mem_nil
  | cons x rest =>
    have hspread : Width.spread .int32 (x :: rest) < 2 ^ 31 := (Width.spread_lt_iff rfl x rest (2 ^ 31)).mpr h
    have hsize : (Width.spread .int32 (x :: rest)).size ≤ 31 := Nat.size_le.mpr hspread
    by_cases hzero : Width.spread .int32 (x :: rest) = 0
    · exact iff_of_true (restores_of_spread_zero rfl _ hzero) (inLowerHalf_of_spread_zero hzero)
    · have hne : (Width.spread .int32 (x :: rest)).size ≠ 0 := fun h0 => hzero (Nat.size_eq_zero.mp h0)
      have hsearch : searchWidth .stops 32 (Width.spread .int32 (x :: rest)) = _ :=
        searchWidth_of_lt .stops (by omega) (by decide)
      obtain ⟨mask, hok, hmask⟩ := fieldMask_wide (show (Width.spread .int32 (x :: rest)).size ≤ 64 by omega)
      have hencode := encode_of_width (t := .int32) rfl hsearch hne
      refine (restores_bind hencode).trans ?_
      rw [← distances_recovered_iff hspread hne bufferWords_storeWords hmask]
      exact exists_congr fun packed => and_congr_right fun _ =>
        decode_eq_ok_iff (t := .int32) rfl (Nat.pos_of_ne_zero hne) (by omega) hok

/-- Three and five: two fields of two bits. -/
theorem smallList_framed : Restores (encode .int32 .stops) (decode .int32) [3, 5] ↔ InLowerHalf [3, 5] :=
  for_int32_restores_iff ((Width.spread_lt_iff (t := .int32) rfl 3 [5] (2 ^ 31)).mp (by decide))

/-- The second of two 31-bit fields keeps one bit. -/
theorem quarterRange_not_framed :
    ¬ ∀ src : List (Native .int32), Width.SpreadBelow .int32 (2 ^ 31) src →
      Restores (encode .int32 .stops) (decode .int32) src := by
  intro h
  obtain ⟨data, hencode, hdecode⟩ := h [0, 1073741824]
    ((Width.spread_lt_iff (t := .int32) rfl 0 [1073741824] (2 ^ 31)).mp (by decide))
  have hrun : (encode .int32 .stops [0, 1073741824] >>= fun data => decode .int32 data 2) = .ok [0, 0] := by
    decide +kernel
  rw [hencode, bind_ok] at hrun
  cases hdecode.symm.trans hrun

/-- **A list of 64-bit values comes back, whatever its range.** -/
theorem for_int64_restores (reading : ShiftReading) (src : List (Native .int64)) :
    Restores (encode .int64 (.gives reading)) (decode .int64) src := by
  cases src with
  | nil => exact ⟨[], rfl, rfl⟩
  | cons x rest =>
    by_cases hzero : Width.spread .int64 (x :: rest) = 0
    · exact restores_of_spread_zero rfl _ hzero
    · have hne : (Width.spread .int64 (x :: rest)).size ≠ 0 := fun h0 => hzero (Nat.size_eq_zero.mp h0)
      have hsize : (Width.spread .int64 (x :: rest)).size ≤ 64 := Width.size_spread_le (t := .int64) rfl (x :: rest)
      obtain ⟨mask, hok, hmask⟩ := fieldMask_wide hsize
      obtain ⟨packed, hpacked, -, hread⟩ := distances_recovered hne
      have hencode := encode_of_width (t := .int64) rfl (searchWidth_wide reading (Nat.size_le.mp hsize)) hne
      refine (restores_bind hencode).mpr ⟨packed, hpacked, ?_⟩
      exact (decode_eq_ok_iff (t := .int64) rfl (Nat.pos_of_ne_zero hne) hsize hok).mpr
        (hread _ mask (bufferWords_storeWords packed) hmask)

/-! ### The vector decoder -/

/-- **The vector decoder writes what the scalar one does, at every width and whatever the words.** -/
theorem for_avx2_agrees {data src : List UInt8} {base : Native .int32} {bits storedCount : Nat} (count : Nat)
    (hheader : loadHeader .int32 data = .ok (base, bits, storedCount, src)) (hbits : bits ≤ 64)
    (hwords : 8 * packedWords bits count ≤ src.length) :
    ∃ values, decode .int32 data count = .ok values ∧ decodeAvx2 data count = .ok values := by
  rw [decodeAvx2, hheader, bind_ok]
  by_cases hzero : bits = 0
  · subst hzero
    exact ⟨_, decode_zero count hheader, if_pos rfl⟩
  · obtain ⟨mask, hok, -⟩ := fieldMask_wide hbits
    obtain ⟨words, hload⟩ := exists_loadWords hwords
    have hlen := length_loadWords hload
    rw [← hlen] at hload
    have hfields : ∀ i ∈ List.range count, ∃ x, unpack (bufferWords src) base mask bits (i * bits) = .ok x := by
      intro i hi
      refine unpack_ok (bufferWords_eq hload) (Nat.pos_of_ne_zero hzero) hbits ?_ _ _
      rw [hlen]
      exact field_le_packedWords (List.mem_range.mp hi)
    obtain ⟨values, hvalues⟩ := exists_mapM_ok hfields
    refine ⟨values, ?_, ?_⟩
    · rw [decode_fields (t := .int32) rfl count hheader (Nat.pos_of_ne_zero hzero) hok, fieldsFrom_eq]
      simp only [Nat.zero_add]
      exact hvalues
    · simp only [hzero, if_false, hok, bind_ok]
      exact hvalues

/-- Two fields of 40 bits, of which 32 are kept. -/
theorem wideFields_agree : ∃ values,
    decode .int32 (storeHeader .int32 7 40 2 ++ storeWords 8 [0x123456789abcdef0#64, 0xffff#64]) 2 = .ok values ∧
      decodeAvx2 (storeHeader .int32 7 40 2 ++ storeWords 8 [0x123456789abcdef0#64, 0xffff#64]) 2 = .ok values :=
  for_avx2_agrees 2 (loadHeader_storeHeader .int32 7 (by decide) 2 _) (by decide) (by decide)

end ColumnarStore.Standalone.For
