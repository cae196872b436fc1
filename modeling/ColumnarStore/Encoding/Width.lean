import ColumnarStore.Encoding.Plain

/-! The frame the packing codecs put around a block: its bounds and a bit width.

Both store every value as its distance from the least one, in the fewest bits that
hold the greatest distance. The width is searched by doubling, in a loop without a
bound of its own: `1ULL << bits` is at most `2^63` however a shift by 64 or more is
read, so from a distance of `2^63` on the loop never ends. -/
namespace ColumnarStore.Encoding.Width
open Foundation
variable (t : DataType)

/-! ### Bounds -/

/-- `max - min` in 64 bits, read unsigned. -/
def range (lo hi : Native t) : Nat := (Native.toInt64 t hi - Native.toInt64 t lo).toNat

/-- The lesser of two signed words from the greater, in their own width. -/
theorem toNat_sub {w : Nat} {lo x : BitVec w} (h : lo.toInt ≤ x.toInt) :
    ((x - lo).toNat : Int) = x.toInt - lo.toInt := by
  have hx := BitVec.two_mul_toInt_lt (x := x)
  have hlo := BitVec.le_two_mul_toInt (x := lo)
  have hmod : (x - lo).toInt = (x.toInt - lo.toInt).bmod (2 ^ w) := BitVec.toInt_sub ..
  have hnat : ((x - lo).toNat : Int) = (x - lo).toInt % (2 ^ w : Nat) := by
    rw [BitVec.toInt_eq_toNat_bmod, Int.bmod_emod]
    exact (Int.emod_eq_of_lt (Int.natCast_nonneg _) (by exact_mod_cast (x - lo).isLt)).symm
  rw [hnat, hmod, Int.bmod_emod]
  exact Int.emod_eq_of_lt (by omega) (by push_cast; omega)

/-- Widening keeps a word whose sign bit is clear. -/
theorem toNat_signExtend {w m bits : Nat} {x : BitVec w} (hw : bits < w) (hm : bits < m)
    (hx : x.toNat < 2 ^ bits) : (x.signExtend m).toNat = x.toNat := by
  have hpow : 2 * 2 ^ bits ≤ 2 ^ w := by
    rw [← pow_succ']
    exact Nat.pow_le_pow_right (by decide) hw
  have hmsb : x.msb = false := BitVec.msb_eq_false_iff_two_mul_lt.mpr (by omega)
  rw [BitVec.signExtend_eq_setWidth_of_msb_false hmsb, BitVec.toNat_setWidth]
  exact Nat.mod_eq_of_lt (hx.trans (Nat.pow_lt_pow_right (by decide) hm))

section Integers
variable {t : DataType} (ht : t.isInteger = true)
include ht

theorem range_eq {lo hi : Native t} (h : lo.toInt ≤ hi.toInt) :
    (range t lo hi : Int) = hi.toInt - lo.toInt := by
  have h64 : (Native.toInt64 t lo).toInt ≤ (Native.toInt64 t hi).toInt := by
    rwa [Native.toInt_toInt64 ht, Native.toInt_toInt64 ht]
  rw [range, toNat_sub h64, Native.toInt_toInt64 ht, Native.toInt_toInt64 ht]

end Integers

/-- The distance from the least to the greatest value. -/
def spread : List (Native t) → Nat
  | [] => 0
  | x :: rest => range t (Native.bounds t x rest).1 (Native.bounds t x rest).2

/-- At no distance at all, every value is the least one. -/
theorem eq_replicate_of_spread {t : DataType} (ht : t.isInteger = true) {x : Native t}
    {rest : List (Native t)} (h : spread t (x :: rest) = 0) :
    x :: rest = List.replicate (rest.length + 1) (Native.bounds t x rest).1 := by
  obtain ⟨-, -, hall⟩ := Native.bounds_spec ht x rest
  refine List.eq_replicate_iff.mpr ⟨rfl, fun y hy => ?_⟩
  obtain ⟨hlo, hhi⟩ := hall y hy
  have hrange := range_eq ht (hlo.trans hhi)
  rw [show range t (Native.bounds t x rest).1 (Native.bounds t x rest).2 = 0 from h] at hrange
  exact BitVec.eq_of_toInt_eq (by omega)

theorem spread_ne_zero_iff {t : DataType} (ht : t.isInteger = true) (x : Native t) (rest : List (Native t)) :
    spread t (x :: rest) ≠ 0 ↔ ∃ y ∈ x :: rest, ∃ z ∈ x :: rest, y ≠ z := by
  obtain ⟨hlo, hhi, hall⟩ := Native.bounds_spec ht x rest
  constructor
  · intro h
    refine ⟨_, hlo, _, hhi, fun heq => h ?_⟩
    show range t (Native.bounds t x rest).1 (Native.bounds t x rest).2 = 0
    rw [heq, range, BitVec.sub_self]
    rfl
  · intro h hzero
    obtain ⟨y, hy, z, hz, hne⟩ := h
    have hconst := (List.eq_replicate_iff.mp (eq_replicate_of_spread ht hzero)).2
    exact hne ((hconst y hy).trans (hconst z hz).symm)

/-- Any two values of the block are less than `n` apart. -/
def SpreadBelow (n : Int) (src : List (Native t)) : Prop := ∀ y ∈ src, ∀ z ∈ src, y.toInt - z.toInt < n

theorem spread_lt_iff {t : DataType} (ht : t.isInteger = true) (x : Native t) (rest : List (Native t)) (n : Nat) :
    spread t (x :: rest) < n ↔ SpreadBelow t n (x :: rest) := by
  obtain ⟨hlo, hhi, hall⟩ := Native.bounds_spec ht x rest
  have hrange : (spread t (x :: rest) : Int) = _ := range_eq ht (hall _ hlo).2
  constructor
  · intro h y hy z hz
    have hy' := (hall y hy).2
    have hz' := (hall z hz).1
    omega
  · intro h
    have := h _ hhi _ hlo
    omega

theorem size_spread_le {t : DataType} (ht : t.isInteger = true) (src : List (Native t)) :
    (spread t src).size ≤ 8 * t.typeSize := by
  cases src with
  | nil => simp [spread]
  | cons x rest =>
    obtain ⟨hlo, -, hall⟩ := Native.bounds_spec ht x rest
    have hle := (hall _ hlo).2
    have hrange := range_eq ht hle
    have hsub := toNat_sub hle
    have hlt := ((Native.bounds t x rest).2 - (Native.bounds t x rest).1).isLt
    refine Nat.size_le.mpr ?_
    show range t (Native.bounds t x rest).1 (Native.bounds t x rest).2 < 2 ^ (8 * t.typeSize)
    omega

/-! ### The width search -/

/-- What a 64-bit shift by 64 or more gives. -/
inductive ShiftReading where
  /-- Nothing is left of the operand. -/
  | zero
  /-- The count is taken modulo 64. -/
  | modulo
  deriving DecidableEq, Repr

/-- `1ULL << bits`. -/
def shiftOne : ShiftReading → Nat → Nat
  | .zero, bits => if bits < 64 then 2 ^ bits else 0
  | .modulo, bits => 2 ^ (bits % 64)

/-- `while ((1ULL << bits) <= range) ++bits`, for at most `fuel` tests. -/
def widthLoop (reading : ShiftReading) (range : Nat) : Nat → Nat → Option Nat
  | 0, _ => none
  | fuel + 1, bits =>
    if shiftOne reading bits ≤ range then widthLoop reading range fuel (bits + 1) else some bits

/-- A loop still running after 65 tests runs for ever (`widthLoop_diverges`). -/
def searchWidth (range : Nat) : Outcome Nat := orFault .diverges (widthLoop .modulo range 65 0)

theorem shiftOne_of_lt (reading : ShiftReading) {bits : Nat} (h : bits < 64) :
    shiftOne reading bits = 2 ^ bits := by
  cases reading with
  | zero => exact if_pos h
  | modulo => rw [shiftOne, Nat.mod_eq_of_lt h]

theorem shiftOne_le (reading : ShiftReading) (bits : Nat) : shiftOne reading bits ≤ 2 ^ 63 := by
  cases reading with
  | zero =>
    rw [shiftOne]
    split
    · exact Nat.pow_le_pow_right (by decide) (by omega)
    · exact Nat.zero_le _
  | modulo => exact Nat.pow_le_pow_right (by decide) (by omega)

theorem widthLoop_diverges (reading : ShiftReading) {range : Nat} (h : 2 ^ 63 ≤ range)
    (fuel bits : Nat) : widthLoop reading range fuel bits = none := by
  induction fuel generalizing bits with
  | zero => rfl
  | succ fuel ih => rw [widthLoop, if_pos ((shiftOne_le reading bits).trans h), ih]

/-- Below that the loop stops at the least width that holds the range. -/
theorem widthLoop_size (reading : ShiftReading) {range : Nat} (h : range < 2 ^ 63) {fuel bits : Nat}
    (hbits : bits ≤ range.size) (hfuel : range.size < bits + fuel) :
    widthLoop reading range fuel bits = some range.size := by
  have hsize : range.size ≤ 63 := Nat.size_le.mpr h
  induction fuel generalizing bits with
  | zero => omega
  | succ fuel ih =>
    rw [widthLoop, shiftOne_of_lt reading (by omega)]
    rcases hbits.lt_or_eq with hlt | heq
    · rw [if_pos (Nat.lt_size.mp hlt), ih (by omega) (by omega)]
    · rw [if_neg (not_le.mpr (Nat.size_le.mp heq.ge)), heq]

theorem searchWidth_eq (range : Nat) :
    searchWidth range = if range < 2 ^ 63 then .ok range.size else .error .diverges := by
  unfold searchWidth
  split
  · next h =>
    have hsize : range.size ≤ 63 := Nat.size_le.mpr h
    rw [widthLoop_size .modulo h (Nat.zero_le _) (by omega), orFault_some]
  · next h => rw [widthLoop_diverges .modulo (not_lt.mp h), orFault_none]

theorem searchWidth_eq_ok {range bits : Nat} :
    searchWidth range = .ok bits ↔ range < 2 ^ 63 ∧ range.size = bits := by
  rw [searchWidth_eq]
  split <;> simp_all

/-! ### The type of the counter -/

/-- The type `bits` is counted in. -/
inductive Counter where
  /-- `uint8_t`, in the frame-of-reference encoder. -/
  | uint8
  /-- `size_t`, in the bit-packing encoder. -/
  | size
  deriving DecidableEq, Repr

/-- `++bits`. -/
def Counter.next : Counter → Nat → Nat
  | .uint8, bits => (bits + 1) % 2 ^ 8
  | .size, bits => (bits + 1) % 2 ^ 64

/-- The search with its counter, for at most `fuel` tests. -/
def searchLoop (reading : ShiftReading) (counter : Counter) (range : Nat) : Nat → Nat → Option Nat
  | 0, _ => none
  | fuel + 1, bits =>
    if shiftOne reading bits ≤ range then searchLoop reading counter range fuel (counter.next bits)
    else some bits

theorem Counter.next_of_lt (counter : Counter) {bits : Nat} (h : bits < 255) : counter.next bits = bits + 1 := by
  cases counter with
  | uint8 => exact Nat.mod_eq_of_lt (Nat.succ_lt_succ h)
  | size => exact Nat.mod_eq_of_lt ((Nat.succ_lt_succ h).trans (by decide))

/-- As long as no counter wraps, its type does not matter. -/
theorem searchLoop_eq (reading : ShiftReading) (counter : Counter) (range : Nat) {fuel bits : Nat}
    (h : bits + fuel ≤ 255) : searchLoop reading counter range fuel bits = widthLoop reading range fuel bits := by
  induction fuel generalizing bits with
  | zero => rfl
  | succ fuel ih => rw [searchLoop, widthLoop, counter.next_of_lt (by omega), ih (by omega)]

/-- A range that needs the top bit is not left by wrapping either. -/
theorem searchLoop_diverges (reading : ShiftReading) (counter : Counter) {range : Nat} (h : 2 ^ 63 ≤ range)
    (fuel bits : Nat) : searchLoop reading counter range fuel bits = none := by
  induction fuel generalizing bits with
  | zero => rfl
  | succ fuel ih => rw [searchLoop, if_pos ((shiftOne_le reading bits).trans h), ih]

/-- The search ends, with the least width up to 64 that holds every distance. -/
def SearchEnds (reading : ShiftReading) (counter : Counter) (src : List (Native .int64)) : Prop :=
  ∃ b, (∃ fuel, searchLoop reading counter (spread .int64 src) fuel 0 = some b) ∧
    IsLeast {b | b ≤ 64 ∧ SpreadBelow .int64 (2 ^ b) src} b

/-- **The search ends exactly when the greatest distance leaves the top bit clear.** -/
theorem searchEnds_iff (reading : ShiftReading) (counter : Counter) (x : Native .int64)
    (rest : List (Native .int64)) :
    SearchEnds reading counter (x :: rest) ↔ SpreadBelow .int64 (2 ^ 63) (x :: rest) := by
  have hbelow : ∀ b : Nat, SpreadBelow .int64 (2 ^ b) (x :: rest) ↔ (spread .int64 (x :: rest)).size ≤ b := by
    intro b
    have h := spread_lt_iff (t := .int64) rfl x rest (2 ^ b)
    rw [Nat.cast_pow, Nat.cast_ofNat] at h
    rw [← h, Nat.size_le]
  constructor
  · intro h
    obtain ⟨b, ⟨fuel, hloop⟩, -⟩ := h
    rw [hbelow, Nat.size_le]
    by_contra hge
    rw [searchLoop_diverges reading counter (not_lt.mp hge)] at hloop
    cases hloop
  · intro h
    have hsize := (hbelow 63).mp h
    refine ⟨(spread .int64 (x :: rest)).size, ⟨65, ?_⟩, ⟨by omega, (hbelow _).mpr (Nat.le_refl _)⟩, ?_⟩
    · rw [searchLoop_eq reading counter _ (by decide),
        widthLoop_size reading (Nat.size_le.mp hsize) (Nat.zero_le _) (by omega)]
    · intro b hb
      exact (hbelow b).mp hb.2

/-- Zero and the least 64-bit number are `2^63` apart. -/
theorem extremes_not_searchEnds :
    ¬ ∃ reading counter, SearchEnds reading counter [BitVec.intMin 64, 0] := by
  intro h
  obtain ⟨reading, counter, b, ⟨fuel, hloop⟩, -⟩ := h
  rw [searchLoop_diverges reading counter (by decide)] at hloop
  cases hloop

/-! ### Distances -/

/-- Every distance of a block fits the width of its greatest. -/
theorem sub_lt_width {t : DataType} (ht : t.isInteger = true) {x : Native t} {rest : List (Native t)}
    {y : Native t} (hy : y ∈ x :: rest) :
    (y - (Native.bounds t x rest).1).toNat < 2 ^ (spread t (x :: rest)).size := by
  obtain ⟨-, -, hall⟩ := Native.bounds_spec ht x rest
  obtain ⟨hlo, hhi⟩ := hall y hy
  have hrange := range_eq ht (hlo.trans hhi)
  have hsub := toNat_sub hlo
  refine lt_of_le_of_lt ?_ (Nat.lt_size_self (spread t (x :: rest)))
  show _ ≤ range t (Native.bounds t x rest).1 (Native.bounds t x rest).2
  omega

theorem setWidth_of_toNat_eq {n m : Nat} {d : BitVec n} {v : BitVec m} (h : v.toNat = d.toNat) :
    v.setWidth n = d := by
  apply BitVec.eq_of_toNat_eq
  rw [BitVec.toNat_setWidth, h, Nat.mod_eq_of_lt d.isLt]

/-- The least value and the distance to a value give the value. -/
theorem add_setWidth_distance {n m : Nat} {lo x : BitVec n} {v : BitVec m} (h : v.toNat = (x - lo).toNat) :
    lo + v.setWidth n = x := by
  rw [setWidth_of_toNat_eq h, BitVec.add_comm, BitVec.sub_add_cancel]

/-! ### The header of a block -/

/-- The bounds and the width, ahead of the packed words. -/
def storeHeader (lo hi : Native t) (bits : Nat) : List UInt8 :=
  storeWord t.typeSize lo ++ storeWord t.typeSize hi ++ storeWord 1 (BitVec.ofNat 8 bits)

/-- The least value, the width and what follows the header; the greatest value is
read and not used. -/
def loadHeader (data : List UInt8) : Outcome (Native t × Nat × List UInt8) := do
  let minVal ← orFault .outOfBounds (loadWord t.typeSize data)
  let _maxVal ← orFault .outOfBounds (loadWord t.typeSize (data.drop t.typeSize))
  let bits ← orFault .outOfBounds (loadWord 1 (data.drop (t.typeSize + t.typeSize)))
  return (minVal, bits.toNat, data.drop (t.typeSize + t.typeSize + 1))

@[simp] theorem length_storeHeader (lo hi : Native t) (bits : Nat) :
    (storeHeader t lo hi bits).length = t.typeSize + t.typeSize + 1 := by
  simp [storeHeader, Nat.add_assoc]

theorem loadHeader_storeHeader (lo hi : Native t) {bits : Nat} (hbits : bits < 256)
    (rest : List UInt8) : loadHeader t (storeHeader t lo hi bits ++ rest) = .ok (lo, bits, rest) := by
  have hmin : loadWord t.typeSize (storeHeader t lo hi bits ++ rest) = some lo := by
    simp only [storeHeader, List.append_assoc, loadWord_storeWord]
  have hmax : loadWord t.typeSize ((storeHeader t lo hi bits ++ rest).drop t.typeSize) = some hi := by
    simp only [storeHeader, List.append_assoc, List.drop_left' (length_storeWord t.typeSize lo),
      loadWord_storeWord]
  have hwidth : loadWord 1 ((storeHeader t lo hi bits ++ rest).drop (t.typeSize + t.typeSize)) =
      some (BitVec.ofNat 8 bits) := by
    rw [storeHeader, List.append_assoc, List.drop_left' (by simp), loadWord_storeWord]
  have hrest : (storeHeader t lo hi bits ++ rest).drop (t.typeSize + t.typeSize + 1) = rest :=
    List.drop_left' (length_storeHeader t lo hi bits)
  have hnat : (BitVec.ofNat 8 bits).toNat = bits := toNat_ofNat_of_lt hbits
  simp only [loadHeader, hmin, hmax, hwidth, orFault_some, bind_ok, hrest, hnat, pure_eq_ok]

end ColumnarStore.Encoding.Width
