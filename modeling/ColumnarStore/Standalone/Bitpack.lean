import ColumnarStore.Standalone.LowHalf

/-! The standalone bit-packer.

`BitPackEncoder` leaves its result in memory, as the least value, a width and a vector
of words; `Write` and `Read` put it into a buffer and take it out, with the number of
words in four bytes. `Decode` masks in the type of the column. `DecodeAvx2` masks in 64
bits, in blocks of eight with a tail, and serves the four-byte types only. -/
namespace ColumnarStore.Standalone.Bitpack
open Foundation Encoding
open Encoding.Width (ShiftReading)
variable (t : DataType)

structure BitPackedData where
  minVal : Native t
  bits : Nat
  packed : List (BitVec 64)

/-! ### Encoding -/

def encode (overshift : Overshift) : List (Native t) → Outcome (BitPackedData t)
  | [] => .ok ⟨0, 0, []⟩
  | x :: rest => do
    let (minVal, maxVal) := Native.bounds t x rest
    let bits ← searchWidth overshift (8 * t.typeSize) (maxVal - minVal).toNat
    if bits = 0 then return ⟨minVal, bits, []⟩
    else do
      let mask ← fieldMask (8 * t.typeSize) bits
      let packed ← packAll bits ((x :: rest).map fun y => (y - minVal) &&& mask)
      return ⟨minVal, bits, packed⟩

def write (data : BitPackedData t) : List UInt8 :=
  storeHeader t data.minVal data.bits data.packed.length ++ storeWords 8 data.packed

def read (data : List UInt8) : Outcome (BitPackedData t) := do
  let (minVal, bits, numWords, src) ← loadHeader t data
  let packed ← orFault .outOfBounds (loadWords 8 numWords src)
  return ⟨minVal, bits, packed⟩

/-! ### Decoding -/

variable {t}

def decode (data : BitPackedData t) (count : Nat) : Outcome (List (Native t)) :=
  if count = 0 ∨ data.bits = 0 then .ok (List.replicate count data.minVal)
  else do
    let mask ← fieldMask (8 * t.typeSize) data.bits
    fieldsFrom (unpack (vectorWords data.packed) data.minVal (mask.setWidth 64) data.bits) data.bits count 0

/-- `DecodeAvx2` for a type of four bytes. -/
def decodeAvx2 (data : BitPackedData .int32) (count : Nat) : Outcome (List (Native .int32)) :=
  if count = 0 ∨ data.bits = 0 then .ok (List.replicate count data.minVal)
  else do
    let mask ← fieldMask 64 data.bits
    let field := fun i => unpack (vectorWords data.packed) data.minVal mask data.bits (i * data.bits)
    blocked 8 count (fun i => (List.range 8).mapM fun j => field (i + j)) field

/-! ### Encoded lists -/

section Integers
variable (ht : t.isInteger = true)
include ht

/-- One distinct value is its own encoding. -/
theorem encode_of_spread_zero (overshift : Overshift) {x : Native t} {rest : List (Native t)}
    (h : Width.spread t (x :: rest) = 0) :
    encode t overshift (x :: rest) = .ok ⟨(Native.bounds t x rest).1, 0, []⟩ := by
  have hwidth : 0 < 8 * t.typeSize ∧ 8 * t.typeSize ≤ 64 := by
    rcases DataType.typeSize_of_isInteger ht with h | h <;> omega
  simp only [encode, toNat_range ht, h, searchWidth_zero overshift hwidth.1 hwidth.2, bind_ok, if_true, pure_eq_ok]

/-- The mask takes nothing away from the distances. -/
theorem encode_of_width {overshift : Overshift} {x : Native t} {rest : List (Native t)}
    (hsearch : searchWidth overshift (8 * t.typeSize) (Width.spread t (x :: rest)) =
      .ok (Width.spread t (x :: rest)).size)
    (hne : (Width.spread t (x :: rest)).size ≠ 0) {mask : Native t}
    (hok : fieldMask (8 * t.typeSize) (Width.spread t (x :: rest)).size = .ok mask)
    (hmask : IsMask (Width.spread t (x :: rest)).size mask) :
    encode t overshift (x :: rest) =
      packAll (Width.spread t (x :: rest)).size ((x :: rest).map fun y => y - (Native.bounds t x rest).1) >>=
        fun packed => .ok ⟨(Native.bounds t x rest).1, (Width.spread t (x :: rest)).size, packed⟩ := by
  have hvalues : (x :: rest).map (fun y => (y - (Native.bounds t x rest).1) &&& mask) =
      (x :: rest).map fun y => y - (Native.bounds t x rest).1 :=
    List.map_congr_left fun y hy => hmask.and_eq (Width.sub_lt_width ht hy)
  simp only [encode, toNat_range ht, hsearch, bind_ok, if_neg hne, hok, hvalues, pure_eq_ok]

end Integers

/-- A width other than 0 is decoded field by field. -/
theorem decode_eq_ok_iff {minVal : Native t} {bits : Nat} {packed : List (BitVec 64)} {mask : Native t}
    (hne : bits ≠ 0) (hok : fieldMask (8 * t.typeSize) bits = .ok mask) {src : List (Native t)} :
    decode ⟨minVal, bits, packed⟩ src.length = .ok src ↔ ∀ (i : Nat) (y : Native t), src[i]? = some y →
      unpack (vectorWords packed) minVal (mask.setWidth 64) bits (i * bits) = .ok y := by
  by_cases hempty : src.length = 0
  · cases List.length_eq_zero_iff.mp hempty
    exact iff_of_true rfl fun i y hy => by cases hy
  · simp only [decode, hempty, hne, or_self, if_false, hok, bind_ok, fieldsFrom_eq_ok, true_and]

/-! ### 32-bit lists -/

/-- **A list of 32-bit values less than `2^31` apart comes back exactly if its fields stay in the
lower half of the first word.** -/
theorem bitpack_int32_restores_iff {src : List (Native .int32)} (h : Width.SpreadBelow .int32 (2 ^ 31) src) :
    Restores (encode .int32 .stops) decode src ↔ InLowerHalf src := by
  cases src with
  | nil => exact iff_of_true ⟨_, rfl, rfl⟩ fun lo hlo => absurd hlo List.not_mem_nil
  | cons x rest =>
    have hspread : Width.spread .int32 (x :: rest) < 2 ^ 31 := (Width.spread_lt_iff rfl x rest (2 ^ 31)).mpr h
    have hsize : (Width.spread .int32 (x :: rest)).size ≤ 31 := Nat.size_le.mpr hspread
    by_cases hzero : Width.spread .int32 (x :: rest) = 0
    · have hconst := Width.eq_replicate_of_spread (t := .int32) rfl hzero
      refine iff_of_true ⟨_, encode_of_spread_zero rfl .stops hzero, ?_⟩ (inLowerHalf_of_spread_zero hzero)
      rw [decode, if_pos (.inr rfl)]
      exact congrArg _ hconst.symm
    · have hne : (Width.spread .int32 (x :: rest)).size ≠ 0 := fun h0 => hzero (Nat.size_eq_zero.mp h0)
      have hsearch : searchWidth .stops 32 (Width.spread .int32 (x :: rest)) = _ :=
        searchWidth_of_lt .stops (by omega) (by decide)
      obtain ⟨mask, hok, hmask⟩ := fieldMask_of_lt
        (show (Width.spread .int32 (x :: rest)).size < 32 by omega) (by decide)
      have hencode := encode_of_width rfl hsearch hne hok hmask
      refine (restores_bind hencode).trans ?_
      rw [← distances_recovered_iff hspread hne vectorWords_eq (hmask.setWidth (.inr (by omega)))]
      exact exists_congr fun packed => and_congr_right fun _ => decode_eq_ok_iff (t := .int32) hne hok

/-- Three and five: two fields of two bits. -/
theorem smallList_packed : Restores (encode .int32 .stops) decode [3, 5] ↔ InLowerHalf [3, 5] :=
  bitpack_int32_restores_iff ((Width.spread_lt_iff (t := .int32) rfl 3 [5] (2 ^ 31)).mp (by decide))

/-- The second of two 31-bit fields keeps one bit. -/
theorem quarterRange_not_packed :
    ¬ ∀ src : List (Native .int32), Width.SpreadBelow .int32 (2 ^ 31) src →
      Restores (encode .int32 .stops) decode src := by
  intro h
  obtain ⟨data, hencode, hdecode⟩ := h [0, 1073741824]
    ((Width.spread_lt_iff (t := .int32) rfl 0 [1073741824] (2 ^ 31)).mp (by decide))
  have hrun : (encode .int32 .stops [0, 1073741824] >>= fun data => decode data 2) = .ok [0, 0] := by
    decide +kernel
  rw [hencode, bind_ok] at hrun
  cases hdecode.symm.trans hrun

/-! ### 64-bit lists -/

/-- `Write` of what `Encode` returns. -/
def encodeWrite (reading : ShiftReading) (src : List (Native .int64)) : Outcome (List UInt8) := do
  let data ← encode .int64 (.gives reading) src
  return write .int64 data

/-- `Decode` of what `Read` returns. -/
def readDecode (bytes : List UInt8) (count : Nat) : Outcome (List (Native .int64)) := do
  let data ← read .int64 bytes
  decode data count

/-- As many words come back as four bytes can count. -/
theorem read_write (data : BitPackedData t) (hbits : data.bits < 2 ^ 8) :
    read t (write t data) = .ok { data with packed := data.packed.take (data.packed.length % 2 ^ 32) } := by
  have hload := loadWords_storeWords 8 (data.packed.take (data.packed.length % 2 ^ 32))
    (storeWords 8 (data.packed.drop (data.packed.length % 2 ^ 32)))
  rw [← storeWords_append, List.take_append_drop, List.length_take, Nat.min_eq_left (Nat.mod_le _ _)] at hload
  simp only [read, write, loadHeader_storeHeader t _ hbits, bind_ok, hload, orFault_some, pure_eq_ok]

theorem readDecode_write (data : BitPackedData .int64) (hbits : data.bits < 2 ^ 8) (count : Nat) :
    readDecode (write .int64 data) count =
      decode { data with packed := data.packed.take (data.packed.length % 2 ^ 32) } count := by
  rw [readDecode, read_write data hbits, bind_ok]

/-- Of too few words the last field is not read. -/
theorem decode_short {minVal : Native .int64} {bits count : Nat} {packed : List (BitVec 64)} (h : 0 < bits)
    (h' : bits ≤ 64) (hcount : 0 < count) (hshort : packed.length < packedWords bits count)
    (src : List (Native .int64)) : decode ⟨minVal, bits, packed⟩ count ≠ .ok src := by
  intro hdecode
  simp only [decode, hcount.ne', h.ne', or_self, if_false] at hdecode
  obtain ⟨mask, -, hdecode⟩ := bind_eq_ok.mp hdecode
  obtain ⟨hlen, hall⟩ := fieldsFrom_eq_ok.mp hdecode
  obtain ⟨e, hextract, -⟩ := unpack_eq_ok.mp (hall (count - 1) _ (List.getElem?_eq_getElem (by omega)))
  obtain ⟨v, hwindow, -⟩ := bind_eq_ok.mp hextract
  obtain ⟨x, hx⟩ := fetch_of_window h h' hwindow
  have hin := (List.getElem?_eq_some_iff.mp hx).1
  have hlast : (count - 1) * bits + bits = count * bits := by
    rw [← Nat.succ_mul, Nat.succ_eq_add_one, Nat.sub_add_cancel hcount]
  have hpos : 0 < count * bits := Nat.mul_pos hcount h
  rw [packedWords] at hshort
  rw [hlast] at hin
  omega

/-- A list of two distinct values or more is written with its words, which hold its values. -/
theorem encodeWrite_eq (reading : ShiftReading) {x : Native .int64} {rest : List (Native .int64)}
    (hne : (Width.spread .int64 (x :: rest)).size ≠ 0) :
    ∃ packed, encodeWrite reading (x :: rest) = .ok (write .int64
        ⟨(Native.bounds .int64 x rest).1, (Width.spread .int64 (x :: rest)).size, packed⟩) ∧
      packed.length = packedWords (Width.spread .int64 (x :: rest)).size (x :: rest).length ∧
      decode ⟨(Native.bounds .int64 x rest).1, (Width.spread .int64 (x :: rest)).size, packed⟩ (x :: rest).length =
        .ok (x :: rest) := by
  have hsize : (Width.spread .int64 (x :: rest)).size ≤ 64 := Width.size_spread_le (t := .int64) rfl (x :: rest)
  obtain ⟨mask, hok, hmask⟩ := fieldMask_wide hsize
  have hencode := encode_of_width (t := .int64) rfl (searchWidth_wide reading (Nat.size_le.mp hsize)) hne hok hmask
  obtain ⟨packed, hpacked, hlen, hread⟩ := distances_recovered hne
  refine ⟨packed, ?_, hlen, (decode_eq_ok_iff (t := .int64) hne hok).mpr ?_⟩
  · rw [encodeWrite, hencode, hpacked]
    rfl
  · exact hread _ _ (vectorWords_eq packed) (hmask.setWidth (.inl (Nat.le_refl 64)))

theorem not_restores_of_long (reading : ShiftReading) {x : Native .int64} {rest : List (Native .int64)}
    (hne : (Width.spread .int64 (x :: rest)).size ≠ 0)
    (hlong : 2 ^ 32 ≤ packedWords (Width.spread .int64 (x :: rest)).size (x :: rest).length) :
    ¬ Restores (encodeWrite reading) readDecode (x :: rest) := by
  intro h
  obtain ⟨bytes, hbytes, hdecode⟩ := h
  have hsize : (Width.spread .int64 (x :: rest)).size ≤ 64 := Width.size_spread_le (t := .int64) rfl (x :: rest)
  obtain ⟨packed, hwrite, hlen, -⟩ := encodeWrite_eq reading hne
  cases hwrite.symm.trans hbytes
  rw [readDecode_write _ (show (Width.spread .int64 (x :: rest)).size < 2 ^ 8 by omega)] at hdecode
  refine decode_short (Nat.pos_of_ne_zero hne) hsize (show 0 < (x :: rest).length from Nat.succ_pos rest.length) ?_ _
    hdecode
  rw [List.length_take, hlen]
  omega

/-- **A list of 64-bit values, whatever its range, comes back through a buffer exactly if its
words can be counted in four bytes.** -/
theorem bitpack_int64_restores_iff (reading : ShiftReading) (src : List (Native .int64)) :
    Restores (encodeWrite reading) readDecode src ↔
      packedWords (Width.spread .int64 src).size src.length < 2 ^ 32 := by
  cases src with
  | nil =>
    refine iff_of_true ⟨_, rfl, ?_⟩ (by decide)
    rw [readDecode_write _ (by decide)]
    rfl
  | cons x rest =>
    by_cases hzero : Width.spread .int64 (x :: rest) = 0
    · have hencode : encodeWrite reading (x :: rest) = .ok (write .int64 ⟨(Native.bounds .int64 x rest).1, 0, []⟩) := by
        rw [encodeWrite, encode_of_spread_zero rfl _ hzero, bind_ok, pure_eq_ok]
      refine iff_of_true ⟨_, hencode, ?_⟩ ?_
      · rw [readDecode_write _ (show 0 < 2 ^ 8 by decide), decode, if_pos (.inr rfl)]
        exact congrArg _ (Width.eq_replicate_of_spread (t := .int64) rfl hzero).symm
      · rw [hzero, Nat.size_zero, packedWords]
        simp
    · have hne : (Width.spread .int64 (x :: rest)).size ≠ 0 := fun h0 => hzero (Nat.size_eq_zero.mp h0)
      have hsize : (Width.spread .int64 (x :: rest)).size ≤ 64 := Width.size_spread_le (t := .int64) rfl (x :: rest)
      constructor
      · intro h
        by_contra hlong
        exact not_restores_of_long reading hne (not_lt.mp hlong) h
      · intro h
        obtain ⟨packed, hwrite, hlen, hdecode⟩ := encodeWrite_eq reading hne
        have hwhole : packed.take (packed.length % 2 ^ 32) = packed := List.take_of_length_le (by omega)
        refine ⟨_, hwrite, ?_⟩
        rw [readDecode_write _ (show (Width.spread .int64 (x :: rest)).size < 2 ^ 8 by omega)]
        exact (congrArg (fun p => decode ⟨_, _, p⟩ _) hwhole).trans hdecode

/-- The least and the greatest number, and `n` zeros after them. -/
def fullRange (n : Nat) : List (Native .int64) := BitVec.intMin 64 :: BitVec.intMax 64 :: List.replicate n 0

theorem length_fullRange (n : Nat) : (fullRange n).length = n + 2 :=
  congrArg (· + 2) (List.length_replicate (n := n))

theorem fullRange_not_restores (reading : ShiftReading) {n : Nat} (h : 2 ^ 32 ≤ n + 2) :
    ¬ Restores (encodeWrite reading) readDecode (fullRange n) := by
  have hwide : ¬ Width.spread .int64 (fullRange n) < 2 ^ 63 := by
    intro hlt
    have hbelow := (Width.spread_lt_iff (t := .int64) rfl _ _ (2 ^ 63)).mp hlt
    exact absurd (hbelow (BitVec.intMax 64) (List.mem_cons_of_mem _ List.mem_cons_self) (BitVec.intMin 64)
      List.mem_cons_self) (by decide)
  have hsize : (Width.spread .int64 (fullRange n)).size = 64 :=
    Nat.le_antisymm (Width.size_spread_le (t := .int64) rfl _) (Nat.lt_size.mpr (not_lt.mp hwide))
  refine not_restores_of_long reading (by rw [← fullRange, hsize]; decide) ?_
  rw [← fullRange, hsize, length_fullRange, packedWords]
  omega

/-- `2^32` values over the full range take as many words, and the count of them is cut to 0. -/
theorem longList_not_restores : ¬ ∀ reading (src : List (Native .int64)),
    Restores (encodeWrite reading) readDecode src := by
  intro h
  exact fullRange_not_restores .zero (n := 2 ^ 32 - 2) (by decide) (h .zero _)

/-! ### The vector decoder -/

/-- **At every width below 32 the scalar decoder agrees with the vector one, and at 32 it shifts too
far, unless there is nothing to decode.** -/
theorem bitpack_decoders_agree_iff (data : BitPackedData .int32) (count : Nat) (hbits : data.bits ≤ 32)
    (hwords : packedWords data.bits count ≤ data.packed.length) :
    (∃ values, decode data count = .ok values ∧ decodeAvx2 data count = .ok values) ↔
      data.bits < 32 ∨ count = 0 := by
  by_cases hempty : count = 0 ∨ data.bits = 0
  · refine iff_of_true ⟨_, if_pos hempty, if_pos hempty⟩ ?_
    omega
  · have hpos : 0 < data.bits := by omega
    obtain ⟨mask, hok, hmask⟩ := fieldMask_wide (show data.bits ≤ 64 by omega)
    have hfields : ∀ i < count, ∃ x, unpack (vectorWords data.packed) data.minVal mask data.bits (i * data.bits) =
        .ok x := by
      intro i hi
      refine unpack_ok (vectorWords_eq data.packed) hpos (by omega) ?_ _ _
      have hend : i * data.bits + data.bits ≤ _ := field_le_packedWords hi
      omega
    rw [decode, if_neg hempty, decodeAvx2, if_neg hempty, hok, bind_ok]
    rcases hbits.lt_or_eq with hlt | heq
    · obtain ⟨mask', hok', hmask'⟩ := fieldMask_of_lt (w := 8 * DataType.int32.typeSize) hlt (by decide)
      have hsame : mask'.setWidth 64 = mask := (hmask'.setWidth (.inr hlt.le)).unique hmask
      refine iff_of_true ?_ (.inl hlt)
      rw [hok', bind_ok, hsame]
      exact fieldsFrom_eq_blocked hfields
    · refine iff_of_false (fun h => ?_) (by omega)
      obtain ⟨values, hdecode, -⟩ := h
      rw [heq] at hdecode
      cases hdecode

/-- Three fields of four bits. -/
theorem nibbles_agree : ∃ values, decode ⟨7, 4, [0x321]⟩ 3 = .ok values ∧ decodeAvx2 ⟨7, 4, [0x321]⟩ 3 = .ok values :=
  (bitpack_decoders_agree_iff ⟨7, 4, [0x321]⟩ 3 (by decide) (by decide)).mpr (.inl (by decide))

/-- One field of 32 bits. -/
theorem fullWidth_not_agree : ¬ ∀ (data : BitPackedData .int32) (count : Nat), data.bits ≤ 32 →
    packedWords data.bits count ≤ data.packed.length →
      ∃ values, decode data count = .ok values ∧ decodeAvx2 data count = .ok values := by
  intro h
  obtain ⟨values, hdecode, -⟩ := h ⟨0, 32, [5]⟩ 1 (by decide) (by decide)
  cases hdecode

end ColumnarStore.Standalone.Bitpack
