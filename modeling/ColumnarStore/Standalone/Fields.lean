import ColumnarStore.Encoding.BitPacking
import ColumnarStore.Foundation.Checked

/-! What the standalone packers write.

`bitpack.h` and `for.h` keep distances in fields of one width, without gaps, in words
of 64 bits. They write the same code out anew in each class: the search for the width,
the masks, the loop that ORs distances in, and a header. The literal that is shifted and
the distance have the width of the column's type, the words have 64 bits; every shift is
checked against the operand it has in the source. -/
namespace ColumnarStore.Standalone
open Foundation Foundation.Packing Encoding
open Encoding.Width (ShiftReading)
variable {w : Nat}

/-! ### The width search -/

/-- What a shift of a literal one by its width or more does. -/
inductive Overshift where
  /-- It ends the program. -/
  | stops
  /-- It gives what the reading says. -/
  | gives (reading : ShiftReading)
  deriving DecidableEq, Repr

/-- The result of a shift by `bits`, the width `w` or more. -/
def Overshift.power (w bits : Nat) : Overshift → Outcome Nat
  | stops => .error .shiftWidth
  | gives .zero => .ok 0
  | gives .modulo => .ok (2 ^ (bits % w))

/-- `UnsignedType(1) << bits`, in `w` bits. -/
def shiftedOne (overshift : Overshift) (w bits : Nat) : Outcome Nat :=
  if bits < w then .ok (2 ^ bits) else overshift.power w bits

/-- `while ((UnsignedType(1) << bits) <= range && bits < 64) ++bits`, for at most `fuel` tests. -/
def widthLoop (overshift : Overshift) (w range : Nat) : Nat → Nat → Outcome Nat
  | 0, _ => .error .diverges
  | fuel + 1, bits => do
    let power ← shiftedOne overshift w bits
    if power ≤ range ∧ bits < 64 then widthLoop overshift w range fuel (bits + 1) else return bits

/-- The width 64 ends the loop, so 65 tests are enough. -/
def searchWidth (overshift : Overshift) (w range : Nat) : Outcome Nat := widthLoop overshift w range 65 0

theorem widthLoop_size {overshift : Overshift} {w range : Nat}
    (h : range.size < w ∨ ∃ reading, overshift = .gives reading ∧ range.size = 64) (hle : range.size ≤ 64)
    (hw : range.size ≤ w) {fuel bits : Nat} (hbits : bits ≤ range.size) (hfuel : range.size < bits + fuel) :
    widthLoop overshift w range fuel bits = .ok range.size := by
  induction fuel generalizing bits with
  | zero => omega
  | succ fuel ih =>
    rw [widthLoop]
    rcases hbits.lt_or_eq with hlt | heq
    · rw [shiftedOne, if_pos (by omega), bind_ok, if_pos ⟨Nat.lt_size.mp hlt, by omega⟩]
      exact ih (by omega) (by omega)
    · rcases h with hlt | ⟨reading, rfl, hwide⟩
      · have hpow : range < 2 ^ bits := Nat.size_le.mp heq.ge
        rw [shiftedOne, if_pos (by omega), bind_ok, if_neg (by omega), heq]
        rfl
      · -- Whatever the last shift gives, the second test fails.
        have hpower : ∃ power, shiftedOne (.gives reading) w bits = .ok power := by
          rw [shiftedOne]
          split
          · exact ⟨_, rfl⟩
          · cases reading with
            | zero => exact ⟨_, rfl⟩
            | modulo => exact ⟨_, rfl⟩
        obtain ⟨power, hpower⟩ := hpower
        rw [hpower, bind_ok, if_neg (by omega), heq]
        rfl

/-- Below the width of the literal no shift is too far. -/
theorem searchWidth_of_lt (overshift : Overshift) {w range : Nat} (h : range.size < w) (hw : w ≤ 64) :
    searchWidth overshift w range = .ok range.size :=
  widthLoop_size (.inl h) (by omega) h.le (Nat.zero_le _) (by omega)

theorem searchWidth_zero (overshift : Overshift) {w : Nat} (h : 0 < w) (hw : w ≤ 64) :
    searchWidth overshift w 0 = .ok 0 := by
  have hsearch := searchWidth_of_lt overshift (show (0 : Nat).size < w by rwa [Nat.size_zero]) hw
  rwa [Nat.size_zero] at hsearch

/-- In 64 bits the one shift that is too far does not matter. -/
theorem searchWidth_wide (reading : ShiftReading) {range : Nat} (h : range < 2 ^ 64) :
    searchWidth (.gives reading) 64 range = .ok range.size := by
  have hsize : range.size ≤ 64 := Nat.size_le.mpr h
  refine widthLoop_size ?_ hsize hsize (Nat.zero_le _) (by omega)
  rcases hsize.lt_or_eq with hlt | heq
  · exact .inl hlt
  · exact .inr ⟨reading, rfl, heq⟩

/-! ### Masks -/

/-- `(bits == 64) ? ~0ULL : ((U(1) << bits) - 1)`, where the literal one has `w` bits. -/
def fieldMask (w bits : Nat) : Outcome (BitVec w) :=
  if bits = 64 then .ok (BitVec.allOnes w)
  else do
    let power ← checkedShiftLeft .shiftWidth 1#w bits
    return power - 1#w

/-- A mask of `bits` ones. -/
def IsMask (bits : Nat) (mask : BitVec w) : Prop := ∀ j < w, mask.getLsbD j = decide (j < bits)

theorem fieldMask_of_lt {bits : Nat} (h : bits < w) (hw : w ≤ 64) :
    ∃ mask : BitVec w, fieldMask w bits = .ok mask ∧ IsMask bits mask := by
  refine ⟨1#w <<< bits - 1#w, ?_, fun j _ => getLsbD_mask h j⟩
  rw [fieldMask, if_neg (by omega), checkedShiftLeft_ok _ _ h, bind_ok, pure_eq_ok]

/-- The special case makes up for the one shift that would be too far. -/
theorem fieldMask_wide {bits : Nat} (h : bits ≤ 64) :
    ∃ mask : BitVec 64, fieldMask 64 bits = .ok mask ∧ IsMask bits mask := by
  rcases h.lt_or_eq with hlt | rfl
  · exact fieldMask_of_lt hlt (Nat.le_refl 64)
  · refine ⟨BitVec.allOnes 64, if_pos rfl, fun j hj => ?_⟩
    rw [BitVec.getLsbD_allOnes]

theorem IsMask.setWidth {bits m : Nat} {mask : BitVec w} (h : IsMask bits mask) (hm : m ≤ w ∨ bits ≤ w) :
    IsMask bits (mask.setWidth m) := by
  intro j hj
  rw [BitVec.getLsbD_setWidth, decide_eq_true hj, Bool.true_and]
  rcases Nat.lt_or_ge j w with hin | hout
  · exact h j hin
  · rw [BitVec.getLsbD_of_ge _ _ hout]
    exact (decide_eq_false (by omega)).symm

theorem IsMask.unique {bits : Nat} {mask mask' : BitVec w} (h : IsMask bits mask) (h' : IsMask bits mask') :
    mask = mask' :=
  BitVec.eq_of_getLsbD_eq fun j hj => (h j hj).trans (h' j hj).symm

/-- A value of the field's width passes the mask whole. -/
theorem IsMask.and_eq {bits : Nat} {mask x : BitVec w} (h : IsMask bits mask) (hx : x.toNat < 2 ^ bits) :
    x &&& mask = x := by
  refine BitVec.eq_of_getLsbD_eq fun j hj => ?_
  rw [BitVec.getLsbD_and, h j hj]
  by_cases hbit : j < bits
  · simp [hbit]
  · have hzero : x.getLsbD j = false := by
      rw [← BitVec.testBit_toNat]
      exact Nat.testBit_lt_two_pow (hx.trans_le (Nat.pow_le_pow_right (by decide) (not_lt.mp hbit)))
    rw [hzero, Bool.false_and]

/-! ### Packing -/

/-- The number of 64-bit words for `n` fields. -/
def packedWords (bits n : Nat) : Nat := (n * bits + 63) / 64

/-- OR a value in at `bitPos`. It is shifted in its own width. -/
def deposit (bits bitPos : Nat) (value : BitVec w) (packed : List (BitVec 64)) : Outcome (List (BitVec 64)) := do
  let word := bitPos / 64
  let offset := bitPos % 64
  let low ← checkedShiftLeft .shiftWidth value offset
  let packed ← orFault .outOfBounds (orWord packed word (low.setWidth 64))
  if offset + bits ≤ 64 then return packed
  else do
    let high ← checkedShiftRight .shiftWidth value (64 - offset)
    orFault .outOfBounds (orWord packed (word + 1) (high.setWidth 64))

/-- The loop over the values whose fields begin at `bitPos`. -/
def pack (bits : Nat) : Nat → List (BitVec w) → List (BitVec 64) → Outcome (List (BitVec 64))
  | _, [], packed => .ok packed
  | bitPos, value :: rest, packed => do
    let packed ← deposit bits bitPos value packed
    pack bits (bitPos + bits) rest packed

def packAll (bits : Nat) (values : List (BitVec w)) : Outcome (List (BitVec 64)) :=
  pack bits 0 values (List.replicate (packedWords bits values.length) 0)

theorem length_deposit {bits bitPos : Nat} {value : BitVec w} {packed packed' : List (BitVec 64)}
    (h : deposit bits bitPos value packed = .ok packed') : packed'.length = packed.length := by
  obtain ⟨low, -, h⟩ := bind_eq_ok.mp h
  obtain ⟨packed₁, h₁, h⟩ := bind_eq_ok.mp h
  rw [← length_orWord (orFault_eq_ok.mp h₁)]
  split at h
  · cases h
    rfl
  · obtain ⟨high, -, h⟩ := bind_eq_ok.mp h
    exact length_orWord (orFault_eq_ok.mp h)

theorem length_pack {bits bitPos : Nat} {values : List (BitVec w)} {packed packed' : List (BitVec 64)}
    (h : pack bits bitPos values packed = .ok packed') : packed'.length = packed.length := by
  induction values generalizing bitPos packed with
  | nil =>
    cases h
    rfl
  | cons value rest ih =>
    obtain ⟨packed₁, h₁, h⟩ := bind_eq_ok.mp h
    rw [ih h, length_deposit h₁]

theorem length_packAll {bits : Nat} {values : List (BitVec w)} {packed : List (BitVec 64)}
    (h : packAll bits values = .ok packed) : packed.length = packedWords bits values.length := by
  rw [length_pack h, List.length_replicate]

/-! ### Packing 64-bit values -/

/-- In 64 bits a field is deposited as the codec of the factory does. -/
theorem deposit_eq {bits bitPos : Nat} (value : BitVec 64) (packed : List (BitVec 64)) (hbits : bits ≤ 64) :
    deposit bits bitPos value packed = BitPacking.deposit .int64 bits bitPos value packed := by
  have hlow : bitPos % 64 < 64 := Nat.mod_lt _ (by decide)
  unfold BitPacking.deposit
  rw [deposit, checkedShiftLeft_ok _ _ hlow, bind_ok, BitVec.setWidth_eq]
  refine bind_congr fun packed₁ => ?_
  by_cases hone : bitPos % 64 + bits ≤ 64
  · exact (if_pos hone).trans (if_pos hone).symm
  · rw [if_neg hone, checkedShiftRight_ok _ _ (show 64 - bitPos % 64 < 64 by omega), bind_ok, BitVec.setWidth_eq]
    exact (if_neg hone).symm

theorem pack_eq {bits bitPos : Nat} (hbits : bits ≤ 64) (values packed : List (BitVec 64)) :
    pack bits bitPos values packed = BitPacking.pack .int64 bits 0 bitPos values packed := by
  induction values generalizing bitPos packed with
  | nil => rfl
  | cons value rest ih =>
    show _ = BitPacking.deposit .int64 bits bitPos (value - 0#64) packed >>= BitPacking.pack .int64 bits 0 _ rest
    rw [pack, deposit_eq value packed hbits, BitVec.sub_zero]
    exact bind_congr fun packed₁ => ih packed₁

/-- Values that fit their fields are packed whole. -/
theorem packAll_wide {bits : Nat} (h : 0 < bits) (h' : bits ≤ 64) {values : List (BitVec 64)}
    (hfit : ∀ v ∈ values, v.toNat < 2 ^ bits) :
    ∃ packed, packAll bits values = .ok packed ∧
      Packed (BitPacking.position bits) (values.map BitVec.toNat) packed := by
  have hsub : ∀ v : Native .int64, v - 0 = v := fun v => BitVec.sub_zero v
  obtain ⟨packed, hpack, -, hpacked⟩ := BitPacking.pack_packed (t := .int64) h 0 [] values
    (List.replicate (packedWords bits values.length) 0) (by
      rw [List.length_replicate, List.length_nil, Nat.zero_add]
      rfl)
    (fun v hv => by rw [hsub]; exact hfit v hv) (packed_zeros _ _)
  rw [List.length_nil, Nat.zero_mul] at hpack
  refine ⟨packed, (pack_eq h' values _).trans hpack, ?_⟩
  simp only [hsub] at hpacked
  exact hpacked

/-! ### Headers -/

section Headers
variable (t : DataType)

/-- A value, a width in one byte and a count in four. -/
def storeHeader (base : Native t) (bits count : Nat) : List UInt8 :=
  storeWord t.typeSize base ++ storeWord 1 (BitVec.ofNat 8 bits) ++ storeWord 4 (BitVec.ofNat 32 count)

/-- The three of them, and what follows. -/
def loadHeader (data : List UInt8) : Outcome (Native t × Nat × Nat × List UInt8) := do
  let base ← orFault .outOfBounds (loadWord t.typeSize data)
  let bits ← orFault .outOfBounds (loadWord 1 (data.drop t.typeSize))
  let count ← orFault .outOfBounds (loadWord 4 (data.drop (t.typeSize + 1)))
  return (base, bits.toNat, count.toNat, data.drop (t.typeSize + 1 + 4))

/-- The count comes back cut to its four bytes. -/
theorem loadHeader_storeHeader (base : Native t) {bits : Nat} (hbits : bits < 2 ^ 8) (count : Nat)
    (rest : List UInt8) :
    loadHeader t (storeHeader t base bits count ++ rest) = .ok (base, bits, count % 2 ^ 32, rest) := by
  have hbase : loadWord t.typeSize (storeHeader t base bits count ++ rest) = some base := by
    simp only [storeHeader, List.append_assoc, loadWord_storeWord]
  have hwidth : loadWord 1 ((storeHeader t base bits count ++ rest).drop t.typeSize) =
      some (BitVec.ofNat 8 bits) := by
    simp only [storeHeader, List.append_assoc, List.drop_left' (length_storeWord t.typeSize base),
      loadWord_storeWord]
  have hcount : loadWord 4 ((storeHeader t base bits count ++ rest).drop (t.typeSize + 1)) =
      some (BitVec.ofNat 32 count) := by
    rw [storeHeader, List.append_assoc, List.drop_left' (by simp), loadWord_storeWord]
  have hrest : (storeHeader t base bits count ++ rest).drop (t.typeSize + 1 + 4) = rest :=
    List.drop_left' (by simp [storeHeader, Nat.add_assoc])
  have hnat : (BitVec.ofNat 8 bits).toNat = bits := toNat_ofNat_of_lt hbits
  simp only [loadHeader, hbase, hwidth, hcount, orFault_some, bind_ok, hrest, hnat, BitVec.toNat_ofNat, pure_eq_ok]

variable {t}

/-- The greatest distance in the width of the type is the spread. -/
theorem toNat_range (ht : t.isInteger = true) (x : Native t) (rest : List (Native t)) :
    ((Native.bounds t x rest).2 - (Native.bounds t x rest).1).toNat = Width.spread t (x :: rest) := by
  obtain ⟨hlo, -, hall⟩ := Native.bounds_spec ht x rest
  have hle := (hall _ hlo).2
  have hsub := Width.toNat_sub hle
  have hrange : (Width.spread t (x :: rest) : Int) = _ := Width.range_eq ht hle
  omega

end Headers

/-- What is encoded decodes, with the same count, to what it was. -/
def Restores {α δ : Type} (encode : List α → Outcome δ) (decode : δ → Nat → Outcome (List α)) (src : List α) : Prop :=
  ∃ data, encode src = .ok data ∧ decode data src.length = .ok src

/-- An encoder that wraps up what it packed. -/
theorem restores_bind {α β δ : Type} {encode : List α → Outcome δ} {decode : δ → Nat → Outcome (List α)}
    {src : List α} {packed : Outcome β} {wrap : β → δ} (h : encode src = packed >>= fun b => .ok (wrap b)) :
    Restores encode decode src ↔ ∃ b, packed = .ok b ∧ decode (wrap b) src.length = .ok src := by
  rw [Restores, h]
  cases packed with
  | error e => simp
  | ok b => simp

end ColumnarStore.Standalone
