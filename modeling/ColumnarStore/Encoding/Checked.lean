import ColumnarStore.Encoding.BitPacking
import ColumnarStore.Encoding.FrameOfReference
import ColumnarStore.Foundation.Checked

/-! The integer codecs with their arithmetic checked.

The debug build stops at a signed operation without an exact result and at a shift by
the width of its operand or more. Here both are faults, next to the accesses that
already are. A codec with its arithmetic checked agrees with the one that wraps as long
as no value is `2^(w-1)` or more above the least one, `w` being the width of the type;
from there on the frame-of-reference encoder stops.

The fields of a bit-packed word are shifted unsigned, by less than its width, so that
`deposit` and `extract` serve both forms of that codec. -/
namespace ColumnarStore.Encoding
open Foundation Foundation.Packing Width
variable (t : DataType)

/-! ### Delta -/

namespace Delta

def checkedDifferences (prev : Native t) : List (Native t) → Outcome (List (Native t))
  | [] => .ok []
  | x :: rest => do
    let delta ← checkedSub .signedOverflow x prev
    let deltas ← checkedDifferences x rest
    return delta :: deltas

def checkedEncode : List (Native t) → Outcome (List UInt8)
  | [] => .ok []
  | x :: rest => do
    let deltas ← checkedDifferences t x rest
    return storeWords t.typeSize (x :: deltas)

def checkedSums (prev : Native t) : List (Native t) → Outcome (List (Native t))
  | [] => .ok []
  | d :: rest => do
    let x ← checkedAdd .signedOverflow prev d
    let xs ← checkedSums x rest
    return x :: xs

def checkedDecode (data : List UInt8) (dst : List (Native t)) : Outcome (List (Native t)) :=
  if dst.length = 0 then .ok dst
  else do
    let src ← orFault .outOfBounds (loadWords t.typeSize dst.length data)
    match src with
    | [] => return []
    | x :: rest => do
      let xs ← checkedSums t x rest
      return x :: xs

/-- Every value from its neighbour. -/
def Steps (src : List (Native t)) : Prop := src.IsChain fun prev x => x.ssubOverflow prev = false

variable {t}

theorem checkedDifferences_ok {prev : Native t} {xs : List (Native t)} (h : Steps t (prev :: xs)) :
    checkedDifferences t prev xs = .ok (differences t prev xs) := by
  induction xs generalizing prev with
  | nil => rfl
  | cons x rest ih =>
    obtain ⟨hx, hrest⟩ := List.isChain_cons_cons.mp h
    rw [checkedDifferences, checkedSub_ok _ hx, bind_ok, ih hrest]
    rfl

/-- The running sums add up to the values again, each of them exactly. -/
theorem checkedSums_differences {prev : Native t} {xs : List (Native t)} (h : Steps t (prev :: xs)) :
    checkedSums t prev (differences t prev xs) = .ok xs := by
  induction xs generalizing prev with
  | nil => rfl
  | cons x rest ih =>
    obtain ⟨hx, hrest⟩ := List.isChain_cons_cons.mp h
    have hpos : 0 < 8 * t.typeSize := Nat.mul_pos (by decide) t.typeSize_pos
    rw [differences, checkedSums, checkedAdd_sub _ hpos hx, bind_ok, ih hrest]
    rfl

theorem checked_roundTrips {src : List (Native t)} (h : Steps t src) :
    RoundTrips (checkedEncode t) (checkedDecode t) src := by
  cases src with
  | nil =>
    refine ⟨[], rfl, fun dst hdst => ?_⟩
    cases List.length_eq_zero_iff.mp hdst
    rfl
  | cons x rest =>
    refine ⟨storeWords t.typeSize (x :: differences t x rest), ?_, fun dst hdst => ?_⟩
    · rw [checkedEncode, checkedDifferences_ok h]
      rfl
    · have hlen : dst.length = (x :: differences t x rest).length := by
        rw [hdst, List.length_cons, List.length_cons, length_differences]
      have hload := loadWords_storeWords t.typeSize (x :: differences t x rest) []
      rw [List.append_nil, ← hlen] at hload
      rw [checkedDecode, if_neg (by rw [hdst]; simp), hload, orFault_some, bind_ok]
      simp only [checkedSums_differences h, bind_ok, pure_eq_ok]

end Delta

/-! ### The width search -/

namespace Width

/-- `while ((1ULL << bits) <= range) ++bits`, for at most `fuel` tests. -/
def checkedWidthLoop (range : Nat) : Nat → Nat → Outcome Nat
  | 0, _ => .error .diverges
  | fuel + 1, bits => do
    let power ← checkedShiftLeft .shiftWidth 1#64 bits
    if power.toNat ≤ range then checkedWidthLoop range fuel (bits + 1) else return bits

/-- Of 65 tests the last one shifts too far. -/
def checkedSearchWidth (range : Nat) : Outcome Nat := checkedWidthLoop range 65 0

theorem toNat_one_shiftLeft {bits : Nat} (h : bits < 64) : (1#64 <<< bits).toNat = 2 ^ bits := by
  have hlt : 2 ^ bits < 2 ^ 64 := Nat.pow_lt_pow_right (by decide) h
  rw [BitVec.toNat_shiftLeft, BitVec.toNat_ofNat, Nat.shiftLeft_eq, Nat.one_mod_eq_one.mpr (by decide),
    Nat.one_mul, Nat.mod_eq_of_lt hlt]

theorem checkedWidthLoop_size {range : Nat} (h : range < 2 ^ 63) {fuel bits : Nat}
    (hbits : bits ≤ range.size) (hfuel : range.size < bits + fuel) :
    checkedWidthLoop range fuel bits = .ok range.size := by
  have hsize : range.size ≤ 63 := Nat.size_le.mpr h
  induction fuel generalizing bits with
  | zero => omega
  | succ fuel ih =>
    rw [checkedWidthLoop, checkedShiftLeft_ok _ _ (by omega), bind_ok, toNat_one_shiftLeft (by omega)]
    rcases hbits.lt_or_eq with hlt | heq
    · rw [if_pos (Nat.lt_size.mp hlt), ih (by omega) (by omega)]
    · rw [if_neg (not_le.mpr (Nat.size_le.mp heq.ge)), heq]
      rfl

/-- Below `2^63` no shift is too far. -/
theorem checkedSearchWidth_eq {range : Nat} (h : range < 2 ^ 63) : checkedSearchWidth range = searchWidth range := by
  have hsize : range.size ≤ 63 := Nat.size_le.mpr h
  rw [searchWidth_eq_ok.mpr ⟨h, rfl⟩]
  exact checkedWidthLoop_size h (Nat.zero_le _) (by omega)

end Width

/-! ### Frame of reference -/

namespace FrameOfReference

def checkedPack (bits valuesPerWord : Nat) (minVal : Native t) :
    Nat → List (Native t) → List (BitVec 64) → Outcome (List (BitVec 64))
  | _, [], packed => .ok packed
  | i, x :: rest, packed => do
    let distance ← checkedSub .signedOverflow x minVal
    let shifted ← checkedShiftLeft .shiftWidth (distance.signExtend 64) (i % valuesPerWord * bits)
    let packed ← orFault .outOfBounds (orWord packed (i / valuesPerWord) shifted)
    checkedPack bits valuesPerWord minVal (i + 1) rest packed

def checkedPackAll (bits : Nat) (minVal : Native t) (src : List (Native t)) : Outcome (List (BitVec 64)) :=
  let valuesPerWord := 64 / bits
  let words := (src.length + valuesPerWord - 1) / valuesPerWord
  checkedPack t bits valuesPerWord minVal 0 src (List.replicate words 0)

def checkedEncode : List (Native t) → Outcome (List UInt8)
  | [] => .ok []
  | x :: rest => do
    let (minVal, maxVal) := Native.bounds t x rest
    let range ← checkedSub .signedOverflow (Native.toInt64 t maxVal) (Native.toInt64 t minVal)
    let bits ← checkedSearchWidth range.toNat
    if bits = 0 then return storeHeader t minVal maxVal bits
    else do
      let packed ← checkedPackAll t bits minVal (x :: rest)
      return storeHeader t minVal maxVal bits ++ storeWords 8 packed

/-- `mask` is what the shift `1ULL << bits` ahead of the loop gave, less one. -/
def checkedUnpack (src : List UInt8) (minVal : Native t) (bits : Nat) (mask : BitVec 64) (i : Nat) :
    Outcome (Native t) := do
  let valuesPerWord := 64 / bits
  let packed ← orFault .outOfBounds (loadWord 8 (src.drop (8 * (i / valuesPerWord))))
  let shifted ← checkedShiftRight .shiftWidth packed (i % valuesPerWord * bits)
  checkedAdd .signedOverflow minVal ((shifted &&& mask).setWidth (8 * t.typeSize))

def checkedDecode (data : List UInt8) (dst : List (Native t)) : Outcome (List (Native t)) :=
  if dst.length = 0 then .ok dst
  else do
    let (minVal, bits, src) ← loadHeader t data
    if bits = 0 then return List.replicate dst.length minVal
    else do
      let power ← checkedShiftLeft .shiftWidth 1#64 bits
      (List.range dst.length).mapM (checkedUnpack t src minVal bits (power - 1#64))

variable {t}

theorem shift_lt {bits : Nat} (h : 0 < bits) (h' : bits < 64) (i : Nat) : i % (64 / bits) * bits < 64 := by
  have hfits := field_fits h h' i
  omega

/-- As long as the distances are exact, the loop does what it does without the checks. -/
theorem checkedPack_eq {bits : Nat} (h : 0 < bits) (h' : bits < 64) {minVal : Native t} {i : Nat}
    {rest : List (Native t)} {packed : List (BitVec 64)} (hexact : ∀ x ∈ rest, x.ssubOverflow minVal = false) :
    checkedPack t bits (64 / bits) minVal i rest packed = pack t bits (64 / bits) minVal i rest packed := by
  induction rest generalizing i packed with
  | nil => rfl
  | cons x rest ih =>
    rw [checkedPack, checkedSub_ok _ (hexact x List.mem_cons_self), bind_ok,
      checkedShiftLeft_ok _ _ (shift_lt h h' i), bind_ok, pack]
    congr 1
    funext packed
    exact ih fun y hy => hexact y (List.mem_cons_of_mem x hy)

/-- A distance that is not exact stops the loop, and nothing before it does. -/
theorem checkedPack_overflow {bits : Nat} (h : 0 < bits) (h' : bits < 64) {minVal : Native t} {i n : Nat}
    {rest : List (Native t)} {packed : List (BitVec 64)} (hn : i + rest.length = n)
    (hlen : packed.length = wordCount bits n) (hinexact : ∃ x ∈ rest, x.ssubOverflow minVal = true) :
    checkedPack t bits (64 / bits) minVal i rest packed = .error .signedOverflow := by
  induction rest generalizing i packed with
  | nil =>
    obtain ⟨x, hx, -⟩ := hinexact
    cases hx
  | cons x rest ih =>
    rw [List.length_cons] at hn
    cases hx : x.ssubOverflow minVal with
    | true =>
      rw [checkedPack, checkedSub_error _ hx]
      rfl
    | false =>
      have hword : i / (64 / bits) < packed.length := by
        rw [hlen]
        exact word_lt_wordCount h h' (by omega)
      obtain ⟨packed', hor⟩ := orWord_some hword ((x - minVal).signExtend 64 <<< (i % (64 / bits) * bits))
      have hrest : ∃ y ∈ rest, y.ssubOverflow minVal = true := by
        obtain ⟨y, hy, hover⟩ := hinexact
        rcases List.mem_cons.mp hy with rfl | hy
        · rw [hx] at hover
          cases hover
        · exact ⟨y, hy, hover⟩
      rw [checkedPack, checkedSub_ok _ hx, bind_ok, checkedShiftLeft_ok _ _ (shift_lt h h' i), bind_ok, hor,
        orFault_some, bind_ok]
      exact ih (by omega) ((length_orWord hor).trans hlen) hrest

/-- A value that comes back by wrapping addition comes back by exact addition. -/
theorem checkedUnpack_ok {bits : Nat} (h : 0 < bits) (h' : bits < 64) {src : List UInt8} {minVal x : Native t}
    {i : Nat} (hx : unpack t src minVal bits i = .ok x) (hexact : x.ssubOverflow minVal = false) :
    checkedUnpack t src minVal bits (1#64 <<< bits - 1#64) i = .ok x := by
  obtain ⟨packed, hload, hx⟩ := bind_eq_ok.mp hx
  have hpos : 0 < 8 * t.typeSize := Nat.mul_pos (by decide) t.typeSize_pos
  have hvalue : ((packed >>> (i % (64 / bits) * bits)) &&& (1#64 <<< bits - 1#64)).setWidth (8 * t.typeSize) =
      x - minVal := by
    rw [BitVec.eq_sub_iff_add_eq, BitVec.add_comm]
    exact Except.ok.inj hx
  rw [checkedUnpack, hload, bind_ok, checkedShiftRight_ok _ _ (shift_lt h h' i), bind_ok, hvalue,
    checkedAdd_sub _ hpos hexact]

/-- What comes back by wrapping addition from an exact frame comes back by exact addition. -/
theorem checkedDecode_ok {data words : List UInt8} {dst src : List (Native t)} {minVal : Native t} {bits : Nat}
    (hheader : loadHeader t data = .ok (minVal, bits, words)) (hdecode : decode t data dst = .ok src)
    (hexact : ∀ x ∈ src, x.ssubOverflow minVal = false) : checkedDecode t data dst = .ok src := by
  rw [decode] at hdecode
  rw [checkedDecode]
  split
  · next hempty => rwa [if_pos hempty] at hdecode
  · next hne =>
    rw [if_neg hne, hheader, bind_ok] at hdecode
    rw [hheader, bind_ok]
    dsimp only at hdecode ⊢
    split
    · next hzero => rwa [if_pos hzero] at hdecode
    · next hbits =>
      rw [if_neg hbits] at hdecode
      split at hdecode
      · cases hdecode
      · next hlt =>
        obtain ⟨hlen, hall⟩ := mapM_range_eq_ok.mp hdecode
        rw [checkedShiftLeft_ok _ _ (not_le.mp hlt), bind_ok, mapM_range_eq_ok]
        refine ⟨hlen, fun i x hx => ?_⟩
        exact checkedUnpack_ok (Nat.pos_of_ne_zero hbits) (not_le.mp hlt) (hall i x hx)
          (hexact x (List.mem_of_getElem? hx))

/-- A buffer begins with the least value. -/
theorem loadHeader_encode {x : Native t} {rest : List (Native t)} {bytes : List UInt8}
    (h : encode t (x :: rest) = .ok bytes) :
    ∃ bits words, loadHeader t bytes = .ok ((Native.bounds t x rest).1, bits, words) := by
  obtain ⟨bits, hbits, h⟩ := bind_eq_ok.mp h
  obtain ⟨hrange, rfl⟩ := searchWidth_eq_ok.mp hbits
  have hsize : (spread t (x :: rest)).size ≤ 63 := Nat.size_le.mpr hrange
  change (if (spread t (x :: rest)).size = 0 then _ else _) = _ at h
  split at h
  · next hzero =>
    cases h
    have hload := loadHeader_storeHeader t (Native.bounds t x rest).1 (Native.bounds t x rest).2
      (show (spread t (x :: rest)).size < 256 by omega) []
    rw [List.append_nil] at hload
    exact ⟨_, _, hload⟩
  · obtain ⟨packed, -, h⟩ := bind_eq_ok.mp h
    cases h
    exact ⟨_, _, loadHeader_storeHeader t _ _ (show (spread t (x :: rest)).size < 256 by omega) _⟩

end FrameOfReference

/-! ### Bit packing -/

namespace BitPacking

def checkedPack (bits : Nat) (minVal : Native t) :
    Nat → List (Native t) → List (Native t) → Outcome (List (Native t))
  | _, [], packed => .ok packed
  | bitPos, x :: rest, packed => do
    let distance ← checkedSub .signedOverflow x minVal
    let packed ← deposit t bits bitPos distance packed
    checkedPack bits minVal (bitPos + bits) rest packed

def checkedEncode : List (Native t) → Outcome (List UInt8)
  | [] => .ok []
  | x :: rest => do
    let (minVal, maxVal) := Native.bounds t x rest
    let range ← checkedSub .signedOverflow (Native.toInt64 t maxVal) (Native.toInt64 t minVal)
    let bitsNeeded ← checkedSearchWidth range.toNat
    let bits := Min.min bitsNeeded (wordBits t)
    let zeros := List.replicate (wordCount t bits (rest.length + 1)) 0
    let packed ← checkedPack t bits minVal 0 (x :: rest) zeros
    return storeHeader t minVal maxVal bits ++ storeWords t.typeSize packed

def checkedUnpack (src : List UInt8) (minVal : Native t) (bits i : Nat) : Outcome (Native t) := do
  let value ← extract t src bits (i * bits)
  checkedAdd .signedOverflow minVal (value.setWidth (wordBits t))

def checkedDecode (data : List UInt8) (dst : List (Native t)) : Outcome (List (Native t)) :=
  if dst.length = 0 then .ok dst
  else do
    let (minVal, bits, src) ← loadHeader t data
    if 64 ≤ bits then .error .shiftWidth
    else (List.range dst.length).mapM (checkedUnpack t src minVal bits)

variable {t}

theorem checkedPack_eq {bits bitPos : Nat} {minVal : Native t} {rest packed : List (Native t)}
    (hexact : ∀ x ∈ rest, x.ssubOverflow minVal = false) :
    checkedPack t bits minVal bitPos rest packed = pack t bits minVal bitPos rest packed := by
  induction rest generalizing bitPos packed with
  | nil => rfl
  | cons x rest ih =>
    rw [checkedPack, checkedSub_ok _ (hexact x List.mem_cons_self), bind_ok, pack]
    congr 1
    funext packed
    exact ih fun y hy => hexact y (List.mem_cons_of_mem x hy)

theorem checkedUnpack_ok {bits : Nat} {src : List UInt8} {minVal x : Native t} {i : Nat}
    (hx : unpack t src minVal bits i = .ok x) (hexact : x.ssubOverflow minVal = false) :
    checkedUnpack t src minVal bits i = .ok x := by
  obtain ⟨value, hextract, hx⟩ := bind_eq_ok.mp hx
  have hvalue : value.setWidth (wordBits t) = x - minVal := by
    rw [BitVec.eq_sub_iff_add_eq, BitVec.add_comm]
    exact Except.ok.inj hx
  rw [checkedUnpack, hextract, bind_ok, hvalue, checkedAdd_sub _ (wordBits_pos t) hexact]

theorem checkedDecode_ok {data words : List UInt8} {dst src : List (Native t)} {minVal : Native t} {bits : Nat}
    (hheader : loadHeader t data = .ok (minVal, bits, words)) (hdecode : decode t data dst = .ok src)
    (hexact : ∀ x ∈ src, x.ssubOverflow minVal = false) : checkedDecode t data dst = .ok src := by
  rw [decode] at hdecode
  rw [checkedDecode]
  split
  · next hempty => rwa [if_pos hempty] at hdecode
  · next hne =>
    rw [if_neg hne, hheader, bind_ok] at hdecode
    rw [hheader, bind_ok]
    dsimp only at hdecode ⊢
    split at hdecode
    · cases hdecode
    · next hlt =>
      obtain ⟨hlen, hall⟩ := mapM_range_eq_ok.mp hdecode
      rw [if_neg hlt, mapM_range_eq_ok]
      refine ⟨hlen, fun i x hx => ?_⟩
      exact checkedUnpack_ok (hall i x hx) (hexact x (List.mem_of_getElem? hx))

theorem loadHeader_encode {x : Native t} {rest : List (Native t)} {bytes : List UInt8}
    (h : encode t (x :: rest) = .ok bytes) :
    ∃ bits words, loadHeader t bytes = .ok ((Native.bounds t x rest).1, bits, words) := by
  obtain ⟨bits, hbits, h⟩ := bind_eq_ok.mp h
  obtain ⟨hrange, rfl⟩ := searchWidth_eq_ok.mp hbits
  have hsize : (spread t (x :: rest)).size ≤ 63 := Nat.size_le.mpr hrange
  obtain ⟨packed, -, h⟩ := bind_eq_ok.mp h
  cases h
  exact ⟨_, _, loadHeader_storeHeader t _ _ ((Nat.min_le_left _ _).trans_lt
    (show (spread t (x :: rest)).size < 256 by omega)) _⟩

end BitPacking

/-! ### Distances from the least value -/

section Integers
variable {t : DataType} (ht : t.isInteger = true) {x : Native t} {rest : List (Native t)}
include ht

/-- A block this narrow has only exact distances. -/
theorem exact_of_spread (h : spread t (x :: rest) < 2 ^ (8 * t.typeSize - 1)) :
    ∀ y ∈ x :: rest, y.ssubOverflow (Native.bounds t x rest).1 = false := by
  intro y hy
  obtain ⟨hlo, hhi, hall⟩ := Native.bounds_spec ht x rest
  obtain ⟨hle, hge⟩ := hall y hy
  have hrange : (spread t (x :: rest) : Int) = _ := range_eq ht (hle.trans hge)
  rw [ssubOverflow_eq_false_of_le hle]
  have hpow : ((2 ^ (8 * t.typeSize - 1) : Nat) : Int) = 2 ^ (8 * t.typeSize - 1) := by push_cast; rfl
  omega

/-- In a wider one the distance to the greatest value is not. -/
theorem inexact_of_spread (h : 2 ^ (8 * t.typeSize - 1) ≤ spread t (x :: rest)) :
    ∃ y ∈ x :: rest, y.ssubOverflow (Native.bounds t x rest).1 = true := by
  obtain ⟨hlo, hhi, hall⟩ := Native.bounds_spec ht x rest
  have hle := (hall _ hhi).1
  have hrange : (spread t (x :: rest) : Int) = _ := range_eq ht hle
  refine ⟨_, hhi, ?_⟩
  rw [← Bool.not_eq_false, ssubOverflow_eq_false_of_le hle]
  have hpow : ((2 ^ (8 * t.typeSize - 1) : Nat) : Int) = 2 ^ (8 * t.typeSize - 1) := by push_cast; rfl
  omega

/-- The difference of the bounds is exact in 64 bits. -/
theorem checkedRange_ok (h : spread t (x :: rest) < 2 ^ 63) :
    (checkedSub .signedOverflow (Native.toInt64 t (Native.bounds t x rest).2)
      (Native.toInt64 t (Native.bounds t x rest).1) : Outcome (BitVec 64)) =
        .ok (Native.toInt64 t (Native.bounds t x rest).2 - Native.toInt64 t (Native.bounds t x rest).1) := by
  obtain ⟨hlo, hhi, hall⟩ := Native.bounds_spec ht x rest
  have hle := (hall _ hhi).1
  have hrange : (spread t (x :: rest) : Int) = _ := range_eq ht hle
  refine checkedSub_ok _ ((ssubOverflow_eq_false_of_le ?_).mpr ?_)
  · rwa [Native.toInt_toInt64 ht, Native.toInt_toInt64 ht]
  · rw [Native.toInt_toInt64 ht, Native.toInt_toInt64 ht]
    show _ < (2 : Int) ^ 63
    omega

theorem spread_lt_of_narrow (h : spread t (x :: rest) < 2 ^ (8 * t.typeSize - 1)) :
    spread t (x :: rest) < 2 ^ 63 := by
  refine h.trans_le (Nat.pow_le_pow_right (by decide) ?_)
  rcases DataType.typeSize_of_isInteger ht with hsize | hsize <;> omega

omit ht in
theorem checkedWidth_eq (h : spread t (x :: rest) < 2 ^ 63) :
    checkedSearchWidth (Native.toInt64 t (Native.bounds t x rest).2 -
      Native.toInt64 t (Native.bounds t x rest).1).toNat = .ok (spread t (x :: rest)).size :=
  (checkedSearchWidth_eq h).trans (searchWidth_eq_ok.mpr ⟨h, rfl⟩)

/-- On a narrow block the frame-of-reference encoder meets no check. -/
theorem FrameOfReference.checkedEncode_eq (h : spread t (x :: rest) < 2 ^ (8 * t.typeSize - 1)) :
    FrameOfReference.checkedEncode t (x :: rest) = FrameOfReference.encode t (x :: rest) := by
  have h63 := spread_lt_of_narrow ht h
  have hsearch : searchWidth (range t (Native.bounds t x rest).1 (Native.bounds t x rest).2) =
      .ok (spread t (x :: rest)).size := searchWidth_eq_ok.mpr ⟨h63, rfl⟩
  have hsize : (spread t (x :: rest)).size ≤ 63 := Nat.size_le.mpr h63
  simp only [FrameOfReference.checkedEncode, FrameOfReference.encode, checkedRange_ok ht h63, checkedWidth_eq h63,
    hsearch, bind_ok]
  split
  · rfl
  · next hne =>
    have hpack : FrameOfReference.checkedPackAll t (spread t (x :: rest)).size (Native.bounds t x rest).1
        (x :: rest) = FrameOfReference.packAll t (spread t (x :: rest)).size (Native.bounds t x rest).1 (x :: rest) :=
      FrameOfReference.checkedPack_eq (Nat.pos_of_ne_zero hne) (by omega) (exact_of_spread ht h)
    rw [hpack]

/-- On a wide one it stops. -/
theorem FrameOfReference.checkedEncode_overflow (h : 2 ^ (8 * t.typeSize - 1) ≤ spread t (x :: rest))
    (h63 : spread t (x :: rest) < 2 ^ 63) :
    FrameOfReference.checkedEncode t (x :: rest) = .error .signedOverflow := by
  have hsize : (spread t (x :: rest)).size ≤ 63 := Nat.size_le.mpr h63
  have hne : (spread t (x :: rest)).size ≠ 0 := by
    have hpos : 0 < 2 ^ (8 * t.typeSize - 1) := Nat.pow_pos (by decide)
    rw [ne_eq, Nat.size_eq_zero]
    omega
  have hpack : FrameOfReference.checkedPackAll t (spread t (x :: rest)).size (Native.bounds t x rest).1
      (x :: rest) = .error .signedOverflow :=
    FrameOfReference.checkedPack_overflow (Nat.pos_of_ne_zero hne) (by omega) (Nat.zero_add _)
      List.length_replicate (inexact_of_spread ht h)
  simp only [FrameOfReference.checkedEncode, checkedRange_ok ht h63, checkedWidth_eq h63, bind_ok, if_neg hne, hpack]
  rfl

theorem BitPacking.checkedEncode_eq (h : spread t (x :: rest) < 2 ^ (8 * t.typeSize - 1)) :
    BitPacking.checkedEncode t (x :: rest) = BitPacking.encode t (x :: rest) := by
  have h63 := spread_lt_of_narrow ht h
  have hsearch : searchWidth (range t (Native.bounds t x rest).1 (Native.bounds t x rest).2) =
      .ok (spread t (x :: rest)).size := searchWidth_eq_ok.mpr ⟨h63, rfl⟩
  simp only [BitPacking.checkedEncode, BitPacking.encode, checkedRange_ok ht h63, checkedWidth_eq h63,
    hsearch, bind_ok, BitPacking.checkedPack_eq (exact_of_spread ht h)]

/-- A narrow block comes back through the frame of reference, checked or not. -/
theorem FrameOfReference.checked_roundTrips {src : List (Native t)} (h : spread t src < 2 ^ (8 * t.typeSize - 1)) :
    ∃ bytes, FrameOfReference.encode t src = .ok bytes ∧ FrameOfReference.checkedEncode t src = .ok bytes ∧
      ∀ dst : List (Native t), dst.length = src.length →
        FrameOfReference.decode t bytes dst = .ok src ∧ FrameOfReference.checkedDecode t bytes dst = .ok src := by
  obtain ⟨bytes, hencode, hdecode⟩ := FrameOfReference.decode_encode ht h
  refine ⟨bytes, hencode, ?_, fun dst hdst => ⟨hdecode dst hdst, ?_⟩⟩
  · cases src with
    | nil => exact hencode
    | cons x rest => rw [FrameOfReference.checkedEncode_eq ht h, hencode]
  · cases src with
    | nil =>
      cases List.length_eq_zero_iff.mp hdst
      rfl
    | cons x rest =>
      obtain ⟨bits, words, hheader⟩ := FrameOfReference.loadHeader_encode hencode
      exact FrameOfReference.checkedDecode_ok hheader (hdecode dst hdst) (exact_of_spread ht h)

end Integers

/-- **A block of 64-bit values whose width can be represented comes back, every index is in
bounds and every shift less than 64.** -/
theorem frame_roundTrips_int64 {src : List (Native .int64)} (h : SpreadBelow .int64 (2 ^ 63) src) :
    ∃ bytes, FrameOfReference.encode .int64 src = .ok bytes ∧
      FrameOfReference.checkedEncode .int64 src = .ok bytes ∧
        ∀ dst : List (Native .int64), dst.length = src.length →
          FrameOfReference.decode .int64 bytes dst = .ok src ∧
            FrameOfReference.checkedDecode .int64 bytes dst = .ok src := by
  have hspread : spread .int64 src < 2 ^ 63 := by
    cases src with
    | nil => exact Nat.pow_pos (by decide)
    | cons x rest => exact (spread_lt_iff rfl x rest (2 ^ 63)).mpr h
  exact FrameOfReference.checked_roundTrips rfl hspread

/-- One field takes 63 bits, so that each word holds one. -/
theorem frame_roundTrips_widest :
    ∃ bytes, FrameOfReference.encode .int64 [-1, 9223372036854775806, 0] = .ok bytes ∧
      FrameOfReference.checkedEncode .int64 [-1, 9223372036854775806, 0] = .ok bytes ∧
        ∀ dst : List (Native .int64), dst.length = 3 →
          FrameOfReference.decode .int64 bytes dst = .ok [-1, 9223372036854775806, 0] ∧
            FrameOfReference.checkedDecode .int64 bytes dst = .ok [-1, 9223372036854775806, 0] :=
  frame_roundTrips_int64 ((spread_lt_iff (t := .int64) rfl (-1) [9223372036854775806, 0] (2 ^ 63)).mp (by decide))

/-! ### Exact arithmetic -/

/-- Neither the encoder nor the decoder of what it returned meets a signed operation without
an exact result. -/
def Exact {t : DataType} (encode : List (Native t) → Outcome (List UInt8))
    (decode : List UInt8 → List (Native t) → Outcome (List (Native t))) (src : List (Native t)) : Prop :=
  encode src ≠ .error .signedOverflow ∧
    ∀ bytes, encode src = .ok bytes → ∀ dst : List (Native t), dst.length = src.length →
      decode bytes dst ≠ .error .signedOverflow

theorem exact_of_roundTrips {t : DataType} {encode : List (Native t) → Outcome (List UInt8)}
    {decode : List UInt8 → List (Native t) → Outcome (List (Native t))} {src : List (Native t)}
    (h : RoundTrips encode decode src) : Exact encode decode src := by
  obtain ⟨bytes, hencode, hdecode⟩ := h
  refine ⟨fun herror => ?_, fun bytes' hbytes' dst hdst herror => ?_⟩
  · cases hencode.symm.trans herror
  · cases hencode.symm.trans hbytes'
    cases (hdecode dst hdst).symm.trans herror

section Int32
variable {src : List (Native .int32)}

/-- In a narrow block neighbours are no further apart than other values. -/
theorem Delta.steps_of_narrow (h : SpreadBelow .int32 (2 ^ 31) src) : Delta.Steps .int32 src := by
  refine (List.pairwise_of_forall_mem_list fun prev hprev x hx => ?_).isChain
  have hup := h x hx prev hprev
  have hdown := h prev hprev x hx
  rw [ssubOverflow_eq_false_iff]
  show -(2 : Int) ^ 31 ≤ _ ∧ _ < (2 : Int) ^ 31
  omega

theorem BitPacking.exact_of_narrow (h : spread .int32 src < 2 ^ 31) :
    Exact (BitPacking.checkedEncode .int32) (BitPacking.checkedDecode .int32) src := by
  cases src with
  | nil =>
    refine exact_of_roundTrips ⟨[], rfl, fun dst hdst => ?_⟩
    cases List.length_eq_zero_iff.mp hdst
    rfl
  | cons x rest =>
    have hencode := BitPacking.checkedEncode_eq (t := .int32) rfl h
    by_cases hzero : spread .int32 (x :: rest) = 0
    · -- The encoder stops at an access out of bounds, after an exact subtraction.
      rw [BitPacking.encode_of_spread_zero hzero] at hencode
      refine ⟨fun herror => ?_, fun bytes hbytes => ?_⟩
      · cases hencode.symm.trans herror
      · cases hencode.symm.trans hbytes
    · obtain ⟨bytes, hbytes, hdecode⟩ := BitPacking.decode_encode (t := .int32) rfl hzero (h.trans (by decide))
      obtain ⟨bits, words, hheader⟩ := BitPacking.loadHeader_encode hbytes
      refine exact_of_roundTrips ⟨bytes, hencode.trans hbytes, fun dst hdst => ?_⟩
      exact BitPacking.checkedDecode_ok hheader (hdecode dst hdst) (exact_of_spread (t := .int32) rfl h)

theorem narrow_of_exact
    (h : Exact (FrameOfReference.checkedEncode .int32) (FrameOfReference.checkedDecode .int32) src) :
    spread .int32 src < 2 ^ 31 := by
  cases src with
  | nil => exact Nat.pow_pos (by decide)
  | cons x rest =>
    by_contra hwide
    have hsize : (spread .int32 (x :: rest)).size ≤ 32 := size_spread_le rfl (x :: rest)
    exact h.1 (FrameOfReference.checkedEncode_overflow (t := .int32) rfl (not_lt.mp hwide)
      ((Nat.size_le.mp hsize).trans (by decide)))

end Int32

/-- **The arithmetic of all three codecs is exact exactly if any two values are less than
`2^31` apart.** -/
theorem codecs_exact_iff (src : List (Native .int32)) :
    Exact (Delta.checkedEncode .int32) (Delta.checkedDecode .int32) src ∧
        Exact (FrameOfReference.checkedEncode .int32) (FrameOfReference.checkedDecode .int32) src ∧
          Exact (BitPacking.checkedEncode .int32) (BitPacking.checkedDecode .int32) src ↔
      SpreadBelow .int32 (2 ^ 31) src := by
  have hspread : spread .int32 src < 2 ^ 31 ↔ SpreadBelow .int32 (2 ^ 31) src := by
    cases src with
    | nil => exact iff_of_true (Nat.pow_pos (by decide)) fun y hy => absurd hy List.not_mem_nil
    | cons x rest => exact spread_lt_iff rfl x rest (2 ^ 31)
  constructor
  · intro h
    obtain ⟨-, hframe, -⟩ := h
    exact hspread.mp (narrow_of_exact hframe)
  · intro h
    have hnarrow := hspread.mpr h
    obtain ⟨bytes, -, hencode, hdecode⟩ := FrameOfReference.checked_roundTrips (t := .int32) rfl hnarrow
    exact ⟨exact_of_roundTrips (Delta.checked_roundTrips (Delta.steps_of_narrow h)),
      exact_of_roundTrips ⟨bytes, hencode, fun dst hdst => (hdecode dst hdst).2⟩,
      BitPacking.exact_of_narrow hnarrow⟩

/-- From the least number to the greatest all three of them overflow. -/
theorem extremes_not_exact :
    ¬ Exact (Delta.checkedEncode .int32) (Delta.checkedDecode .int32) [BitVec.intMin 32, BitVec.intMax 32] ∧
      ¬ Exact (FrameOfReference.checkedEncode .int32) (FrameOfReference.checkedDecode .int32)
          [BitVec.intMin 32, BitVec.intMax 32] ∧
        ¬ Exact (BitPacking.checkedEncode .int32) (BitPacking.checkedDecode .int32)
            [BitVec.intMin 32, BitVec.intMax 32] :=
  ⟨fun h => h.1 (by decide), fun h => h.1 (by decide +kernel), fun h => h.1 (by decide +kernel)⟩

end ColumnarStore.Encoding
