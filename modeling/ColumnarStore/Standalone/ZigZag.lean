import ColumnarStore.Standalone.For

/-! The zigzag codes, and the frame of reference over them.

`ZigZagEncoder::Encode` shifts an unsigned word to the right, so that the sign bit moves
to the bottom and nothing else changes: a number below zero gets the code of what it is
above the least number. `Decode` complements half of an odd code, as the zigzag map does.
The two agree from zero up and nowhere below it.

`ForZigZagEncoder` keeps the least code decoded, and the distances of the codes from it.
`ForZigZagDecoder` decodes that value once more, to add the distances to. -/
namespace ColumnarStore.Standalone.ZigZag
open Foundation Encoding For
open Encoding.Width (ShiftReading)
variable (t : DataType)

/-! ### The codes -/

def zigZagEncode (value : Native t) : Native t := (value <<< 1) ^^^ (value >>> (t.typeSize * 8 - 1))

def zigZagDecode (value : Native t) : Native t := (value >>> 1) ^^^ -(value &&& 1)

/-! ### The codec -/

/-- The least and the greatest code, unsigned, in one pass. -/
def codeBounds (zz : Native t) (rest : List (Native t)) : Native t × Native t :=
  rest.foldl (fun (lo, hi) y =>
    (if y.toNat < lo.toNat then y else lo, if hi.toNat < y.toNat then y else hi)) (zz, zz)

def encode (overshift : Overshift) : List (Native t) → Outcome (List UInt8)
  | [] => .ok []
  | x :: rest => do
    let (minZz, maxZz) := codeBounds t (zigZagEncode t x) (rest.map (zigZagEncode t))
    let bits ← searchWidth overshift (8 * t.typeSize) (maxZz - minZz).toNat
    appendFields t (zigZagDecode t minZz) bits ((x :: rest).map fun y => zigZagEncode t y - minZz)

/-- The value whose code is the field at `bitPos` above the decoded base. -/
def unpackCode (fetch : Words) (base : Native t) (mask : BitVec 64) (bits bitPos : Nat) : Outcome (Native t) := do
  let delta ← extract fetch mask bits bitPos
  let zz := zigZagDecode t base + delta.setWidth (8 * t.typeSize)
  return zigZagDecode t zz

def decode (data : List UInt8) (count : Nat) : Outcome (List (Native t)) :=
  if count = 0 then .ok []
  else do
    let (base, bits, _storedCount, src) ← loadHeader t data
    if bits = 0 then return List.replicate count base
    else do
      let mask ← fieldMask 64 bits
      let mask := (mask.setWidth (8 * t.typeSize)).setWidth 64
      fieldsFrom (unpackCode t (bufferWords src) base mask bits) bits count 0

/-! ### The codes as numbers -/

section Codes
variable {t : DataType}

/-- A code is the word turned left by one bit. -/
theorem toNat_zigZagEncode (x : Native t) :
    (zigZagEncode t x).toNat =
      if x.toNat < 2 ^ (8 * t.typeSize - 1) then 2 * x.toNat else 2 * x.toNat - 2 ^ (8 * t.typeSize) + 1 := by
  have hpos : 0 < 8 * t.typeSize := Nat.mul_pos (by decide) t.typeSize_pos
  have hpow : 2 ^ (8 * t.typeSize) = 2 * 2 ^ (8 * t.typeSize - 1) := by
    rw [← pow_succ', Nat.sub_add_cancel hpos]
  have hx := x.isLt
  rw [zigZagEncode, Nat.mul_comm t.typeSize 8, BitVec.toNat_xor, BitVec.toNat_shiftLeft, BitVec.toNat_ushiftRight,
    Nat.shiftRight_eq_div_pow, Nat.shiftLeft_eq, Nat.pow_one, Nat.mul_comm _ 2]
  split
  · next hlow =>
    rw [Nat.div_eq_of_lt hlow, Nat.xor_zero, Nat.mod_eq_of_lt (by omega)]
  · next hhigh =>
    have htop : x.toNat / 2 ^ (8 * t.typeSize - 1) = 1 := Nat.div_eq_of_lt_le (by omega) (by omega)
    have hmod : 2 * x.toNat % 2 ^ (8 * t.typeSize) = 2 * x.toNat - 2 ^ (8 * t.typeSize) := by
      rw [Nat.mod_eq_sub_mod (by omega), Nat.mod_eq_of_lt (by omega)]
    rw [htop, hmod, Nat.xor_one_of_even]
    exact ⟨x.toNat - 2 ^ (8 * t.typeSize - 1), by omega⟩

/-- An odd code is the complement of its half. -/
theorem toNat_zigZagDecode (z : Native t) :
    (zigZagDecode t z).toNat =
      if z.toNat % 2 = 0 then z.toNat / 2 else 2 ^ (8 * t.typeSize) - 1 - z.toNat / 2 := by
  have hone : 1 < 2 ^ (8 * t.typeSize) := Nat.one_lt_two_pow (Nat.mul_pos (by decide) t.typeSize_pos).ne'
  have hbit : z &&& 1 = BitVec.ofNat _ (z.toNat % 2) := by
    apply BitVec.eq_of_toNat_eq
    rw [BitVec.toNat_and, show (1 : Native t).toNat = 1 from toNat_ofNat_of_lt hone, Nat.and_one_is_mod,
      toNat_ofNat_of_lt (by omega)]
  have hhalf : (z >>> 1).toNat = z.toNat / 2 := by
    rw [BitVec.toNat_ushiftRight, Nat.shiftRight_eq_div_pow, Nat.pow_one]
  rw [zigZagDecode, hbit]
  rcases Nat.mod_two_eq_zero_or_one z.toNat with heven | hodd
  · rw [heven, if_pos rfl, BitVec.neg_zero, BitVec.xor_zero, hhalf]
  · rw [hodd, if_neg (by decide), BitVec.neg_one_eq_allOnes, BitVec.xor_allOnes, BitVec.toNat_not, hhalf]

/-- A word has eight bits or more, so that its range has four quarters. -/
theorem quarters (t : DataType) :
    ∃ q, 0 < q ∧ 2 ^ (8 * t.typeSize - 1) = 2 * q ∧ 2 ^ (8 * t.typeSize) = 4 * q := by
  have hpos := t.typeSize_pos
  have hhalf : 2 ^ (8 * t.typeSize - 1) = 2 * 2 ^ (8 * t.typeSize - 2) := by
    rw [← pow_succ']
    congr 1
    omega
  have hfull : 2 ^ (8 * t.typeSize) = 2 * 2 ^ (8 * t.typeSize - 1) := by
    rw [← pow_succ', Nat.sub_add_cancel (by omega)]
  exact ⟨_, Nat.two_pow_pos _, hhalf, by omega⟩

theorem toInt_cases (v : Native t) :
    v.toInt = if v.toNat < 2 ^ (8 * t.typeSize - 1) then (v.toNat : Int)
      else v.toNat - (2 ^ (8 * t.typeSize) : Nat) := by
  obtain ⟨q, hq, hhalf, hfull⟩ := quarters t
  rw [BitVec.toInt_eq_toNat_cond, hhalf, hfull]
  split <;> split <;> omega

theorem nonneg_iff (v : Native t) : 0 ≤ v.toInt ↔ v.toNat < 2 ^ (8 * t.typeSize - 1) := by
  have hv := v.isLt
  rw [toInt_cases]
  split <;> omega

/-- Below zero the sum of a value and of what comes back is odd: they differ. -/
theorem restored_iff (v : Native t) : zigZagDecode t (zigZagEncode t v) = v ↔ 0 ≤ v.toInt := by
  obtain ⟨q, hq, hhalf, hfull⟩ := quarters t
  have hv : v.toNat < _ := v.isLt
  rw [nonneg_iff, ← BitVec.toNat_inj, toNat_zigZagDecode, toNat_zigZagEncode, hhalf, hfull]
  rw [hfull] at hv
  split <;> split <;> omega

theorem code_eq_iff (v : Native t) :
    ((zigZagEncode t v).toNat : Int) = (if 0 ≤ v.toInt then 2 * v.toInt else -2 * v.toInt - 1) ↔ 0 ≤ v.toInt := by
  obtain ⟨q, hq, hhalf, hfull⟩ := quarters t
  have hv : v.toNat < _ := v.isLt
  simp only [nonneg_iff]
  rw [toInt_cases, toNat_zigZagEncode, hhalf, hfull]
  rw [hfull] at hv
  split <;> omega

/-- **A value comes back and has the code of its magnitude exactly if it is not below zero.** -/
theorem proper_code_iff (t : DataType) (v : Native t) :
    (zigZagDecode t (zigZagEncode t v) = v ∧
      ((zigZagEncode t v).toNat : Int) = if 0 ≤ v.toInt then 2 * v.toInt else -2 * v.toInt - 1) ↔ 0 ≤ v.toInt := by
  rw [restored_iff, code_eq_iff, and_self]

/-- Minus one has the greatest code, which is that of the least number. -/
theorem minusOne_code : ¬ ∀ v : Native .int32, zigZagDecode .int32 (zigZagEncode .int32 v) = v ∧
    ((zigZagEncode .int32 v).toNat : Int) = if 0 ≤ v.toInt then 2 * v.toInt else -2 * v.toInt - 1 := by
  intro h
  have hback := (h (-1)).1
  revert hback
  decide

end Codes

/-! ### 64-bit codes -/

section Int64

/-- The number that is read as the code of `x`: the zigzag map proper. -/
def properCode (x : Nat) : Nat := if x < 2 ^ 63 then 2 * x else 2 * (2 ^ 64 - 1 - x) + 1

theorem toNat_encode64 (x : Native .int64) :
    (zigZagEncode .int64 x).toNat = if x.toNat < 2 ^ 63 then 2 * x.toNat else 2 * x.toNat - 2 ^ 64 + 1 :=
  toNat_zigZagEncode x

theorem toNat_decode64 (z : Native .int64) :
    (zigZagDecode .int64 z).toNat = if z.toNat % 2 = 0 then z.toNat / 2 else 2 ^ 64 - 1 - z.toNat / 2 :=
  toNat_zigZagDecode z

/-- A code decodes to `x` if it is the proper one. -/
theorem decode_eq_iff (z x : Native .int64) : zigZagDecode .int64 z = x ↔ z.toNat = properCode x.toNat := by
  have hz : z.toNat < 2 ^ 64 := z.isLt
  have hx : x.toNat < 2 ^ 64 := x.isLt
  rw [← BitVec.toNat_inj, toNat_decode64, properCode]
  split <;> split <;> omega

theorem encode_injective : Function.Injective (zigZagEncode .int64) := by
  intro x y h
  have hx : x.toNat < 2 ^ 64 := x.isLt
  have hy : y.toNat < 2 ^ 64 := y.isLt
  rw [← BitVec.toNat_inj, toNat_encode64, toNat_encode64] at h
  apply BitVec.eq_of_toNat_eq
  split at h <;> split at h <;> omega

/-- Encoding and decoding are inverse from zero up. -/
theorem decode_encode_iff (x : Native .int64) :
    zigZagDecode .int64 (zigZagEncode .int64 x) = x ↔ x.toNat < 2 ^ 63 :=
  (restored_iff x).trans (nonneg_iff x)

/-- What the codec makes of `x` when the least code is `m`. -/
def throughFrame (m x : Native .int64) : Native .int64 :=
  zigZagDecode .int64 (zigZagDecode .int64 (zigZagDecode .int64 m) + (zigZagEncode .int64 x - m))

theorem throughFrame_eq_iff (m x : Native .int64) :
    throughFrame m x = x ↔
      ((zigZagDecode .int64 (zigZagDecode .int64 m)).toNat + ((2 ^ 64 - m.toNat) + (zigZagEncode .int64 x).toNat)) %
        2 ^ 64 = properCode x.toNat := by
  rw [throughFrame, decode_eq_iff, BitVec.toNat_add, BitVec.toNat_sub, Nat.add_mod_mod]
  exact Iff.rfl

/-- Decoding twice moves every word but zero. -/
theorem decode_decode_eq_iff (m : Native .int64) :
    zigZagDecode .int64 (zigZagDecode .int64 m) = m ↔ m = 0 := by
  have hm : m.toNat < 2 ^ 64 := m.isLt
  rw [← BitVec.toNat_inj, ← BitVec.toNat_inj, toNat_decode64, toNat_decode64,
    show (0 : Native .int64).toNat = 0 from rfl]
  constructor
  · intro h
    split at h <;> split at h <;> omega
  · intro h
    rw [h]
    rfl

/-- A number from zero up comes back exactly if the least code is zero. -/
theorem throughFrame_low {m x : Native .int64} (hx : x.toNat < 2 ^ 63) : throughFrame m x = x ↔ m = 0 := by
  have hm : m.toNat < 2 ^ 64 := m.isLt
  have hd : (zigZagDecode .int64 (zigZagDecode .int64 m)).toNat < 2 ^ 64 := BitVec.isLt _
  rw [throughFrame_eq_iff, ← decode_decode_eq_iff, toNat_encode64, properCode, if_pos hx, if_pos hx, ← BitVec.toNat_inj]
  omega

theorem throughFrame_zero {x : Native .int64} (hx : 2 ^ 63 ≤ x.toNat) : throughFrame 0 x ≠ x := by
  have hlt : x.toNat < 2 ^ 64 := x.isLt
  have hzero : (zigZagDecode .int64 (zigZagDecode .int64 0)).toNat = 0 := rfl
  rw [ne_eq, throughFrame_eq_iff, hzero, toNat_encode64, properCode, if_neg (by omega), if_neg (by omega),
    show (0 : Native .int64).toNat = 0 from rfl]
  omega

/-- From `x` to `y` the codes rise and the proper codes fall by as much. -/
theorem quarter_apart {x y d : Nat} (hx : 2 ^ 63 ≤ x) (hlt : x < y) (hy : y < 2 ^ 64)
    (h : d = 2 * (2 ^ 64 - 1 - x) + 1) (h' : (d + 2 * (y - x)) % 2 ^ 64 = 2 * (2 ^ 64 - 1 - y) + 1) :
    y = x + 2 ^ 62 := by omega

/-- In the third quarter no number has its code decoded twice for a proper code. -/
theorem not_proper_code {x d p : Nat} (hx : 2 ^ 63 ≤ x) (hlt : x < 3 * 2 ^ 62) (h : d = 2 * (2 ^ 64 - 1 - x) + 1)
    (hp : p = 3 * 2 ^ 63 - 1 - x) : d ≠ if p % 2 = 0 then p / 2 else 2 ^ 64 - 1 - p / 2 := by
  split <;> omega

/-- Below zero there is room for one code only. -/
theorem throughFrame_high {x y : Native .int64} (hx : 2 ^ 63 ≤ x.toNat) (hlt : x.toNat < y.toNat)
    (h : throughFrame (zigZagEncode .int64 x) x = x) : throughFrame (zigZagEncode .int64 x) y ≠ y := by
  have hy : y.toNat < 2 ^ 64 := y.isLt
  have hcode : (zigZagEncode .int64 x).toNat = 2 * x.toNat - 2 ^ 64 + 1 := by
    rw [toNat_encode64, if_neg (by omega)]
  have hcode' : (zigZagEncode .int64 y).toNat = 2 * y.toNat - 2 ^ 64 + 1 := by
    rw [toNat_encode64, if_neg (by omega)]
  have honce : (zigZagDecode .int64 (zigZagEncode .int64 x)).toNat = 3 * 2 ^ 63 - 1 - x.toNat := by
    rw [toNat_decode64, hcode, if_neg (by omega)]
    omega
  have htwice := toNat_decode64 (zigZagDecode .int64 (zigZagEncode .int64 x))
  have hd : (zigZagDecode .int64 (zigZagDecode .int64 (zigZagEncode .int64 x))).toNat < 2 ^ 64 := BitVec.isLt _
  rw [throughFrame_eq_iff, hcode, properCode, if_neg (by omega), Nat.sub_add_cancel (by omega), Nat.add_mod_right,
    Nat.mod_eq_of_lt hd] at h
  rw [ne_eq, throughFrame_eq_iff, hcode, hcode', properCode, if_neg (by omega)]
  have hrise : 2 ^ 64 - (2 * x.toNat - 2 ^ 64 + 1) + (2 * y.toNat - 2 ^ 64 + 1) = 2 * (y.toNat - x.toNat) + 2 ^ 64 := by
    omega
  rw [hrise, ← Nat.add_assoc, Nat.add_mod_right]
  intro h'
  have hquarter := quarter_apart hx hlt hy h h'
  exact not_proper_code hx (by omega) h honce htwice

/-- Two codes or more come back exactly if zero is among the numbers and none is below it. -/
theorem all_throughFrame_iff {src : List (Native .int64)} {m : Native .int64}
    (hleast : ∃ x ∈ src, zigZagEncode .int64 x = m) (hall : ∀ x ∈ src, m.toNat ≤ (zigZagEncode .int64 x).toNat)
    (hother : ∃ y ∈ src, zigZagEncode .int64 y ≠ m) :
    (∀ x ∈ src, throughFrame m x = x) ↔ (∀ x ∈ src, x.toNat < 2 ^ 63) ∧ 0 ∈ src := by
  constructor
  · intro h
    obtain ⟨x, hx, rfl⟩ := hleast
    obtain ⟨y, hy, hne⟩ := hother
    have hzero : zigZagEncode .int64 x = 0 := by
      rcases Nat.lt_or_ge x.toNat (2 ^ 63) with hlow | hhigh
      · exact (throughFrame_low hlow).mp (h x hx)
      · rcases Nat.lt_or_ge y.toNat (2 ^ 63) with hlow' | hhigh'
        · exact (throughFrame_low hlow').mp (h y hy)
        · have hle := hall y hy
          have hxy : x.toNat ≠ y.toNat := fun heq => hne (congrArg _ (BitVec.eq_of_toNat_eq heq.symm))
          rw [toNat_encode64, toNat_encode64, if_neg (by omega), if_neg (by omega)] at hle
          exact absurd (h y hy) (throughFrame_high hhigh (by omega) (h x hx))
    have hx0 : x = 0 := encode_injective (hzero.trans rfl)
    refine ⟨fun z hz => ?_, hx0 ▸ hx⟩
    by_contra hhigh
    exact throughFrame_zero (not_lt.mp hhigh) (hzero ▸ h z hz)
  · intro h x hx
    obtain ⟨hlow, hmem⟩ := h
    have hzero : m = 0 := by
      have hle := hall 0 hmem
      rw [show (zigZagEncode .int64 0).toNat = 0 from rfl] at hle
      exact BitVec.eq_of_toNat_eq (Nat.le_zero.mp hle)
    exact (throughFrame_low (hlow x hx)).mpr hzero

end Int64

/-! ### The codec on 64-bit values -/

theorem codeBounds_spec {t : DataType} (zz : Native t) (rest : List (Native t)) :
    (codeBounds t zz rest).1 ∈ zz :: rest ∧ (codeBounds t zz rest).2 ∈ zz :: rest ∧
      ∀ y ∈ zz :: rest,
        (codeBounds t zz rest).1.toNat ≤ y.toNat ∧ y.toNat ≤ (codeBounds t zz rest).2.toNat := by
  have hlesser : PicksLesser BitVec.toNat fun lo y : Native t => if y.toNat < lo.toNat then y else lo :=
    .of_ite fun _ _ => rfl
  exact hlesser.foldl_extremes (.of_ite fun _ _ => rfl) zz rest rfl

/-- One code: the header alone holds it, decoded. -/
theorem restores_of_one_code (overshift : Overshift) {x : Native .int64} {rest : List (Native .int64)}
    (hone : ∀ y ∈ x :: rest, y = x) :
    Restores (encode .int64 overshift) (decode .int64) (x :: rest) ↔ x.toNat < 2 ^ 63 := by
  obtain ⟨hlo, hhi, -⟩ := codeBounds_spec (zigZagEncode .int64 x) (rest.map (zigZagEncode .int64))
  have hcodes : ∀ zz ∈ zigZagEncode .int64 x :: rest.map (zigZagEncode .int64), zz = zigZagEncode .int64 x := by
    intro zz hzz
    rw [← List.map_cons] at hzz
    obtain ⟨y, hy, rfl⟩ := List.mem_map.mp hzz
    rw [hone y hy]
  have hbounds : codeBounds .int64 (zigZagEncode .int64 x) (rest.map (zigZagEncode .int64)) =
      (zigZagEncode .int64 x, zigZagEncode .int64 x) := Prod.ext (hcodes _ hlo) (hcodes _ hhi)
  have hencode : encode .int64 overshift (x :: rest) =
      .ok (storeHeader .int64 (zigZagDecode .int64 (zigZagEncode .int64 x)) 0 (x :: rest).length) := by
    have hsearch : searchWidth overshift (8 * DataType.int64.typeSize) 0 = .ok 0 :=
      searchWidth_zero overshift (by decide) (by decide)
    simp only [encode, hbounds, BitVec.sub_self, BitVec.toNat_zero, hsearch, bind_ok, appendFields, if_true, pure_eq_ok,
      List.length_map]
  have hload := loadHeader_storeHeader .int64 (zigZagDecode .int64 (zigZagEncode .int64 x)) (show 0 < 2 ^ 8 by decide)
    (x :: rest).length []
  rw [List.append_nil] at hload
  have hsrc : x :: rest = List.replicate (x :: rest).length x := List.eq_replicate_iff.mpr ⟨rfl, hone⟩
  rw [← decode_encode_iff, Restores, hencode]
  simp only [Except.ok.injEq, exists_eq_left', decode, List.length_cons, Nat.succ_ne_zero, if_false]
  rw [← List.length_cons (a := x), hload, bind_ok, if_pos rfl, pure_eq_ok, Except.ok.injEq]
  constructor
  · intro h
    exact (List.cons.inj h).1
  · intro h
    rw [h]
    exact hsrc.symm

/-- The distances of the codes from the least one fit the width of the greatest. -/
theorem sub_lt_codeWidth {x : Native .int64} {rest : List (Native .int64)} {m M : Native .int64}
    (hbounds : codeBounds .int64 (zigZagEncode .int64 x) (rest.map (zigZagEncode .int64)) = (m, M)) :
    ∀ v ∈ (x :: rest).map (fun y => zigZagEncode .int64 y - m), v.toNat < 2 ^ (M - m).toNat.size := by
  have hspec := codeBounds_spec (zigZagEncode .int64 x) (rest.map (zigZagEncode .int64))
  rw [hbounds, ← List.map_cons] at hspec
  obtain ⟨hlo, -, hall⟩ := hspec
  dsimp only at hlo hall
  have hrange : (M - m).toNat = M.toNat - m.toNat := BitVec.toNat_sub_of_le (BitVec.le_def.mpr (hall m hlo).2)
  intro v hv
  obtain ⟨y, hy, rfl⟩ := List.mem_map.mp hv
  obtain ⟨hfrom, hto⟩ := hall _ (List.mem_map_of_mem hy)
  have hdelta : (zigZagEncode .int64 y - m).toNat = (zigZagEncode .int64 y).toNat - m.toNat :=
    BitVec.toNat_sub_of_le (BitVec.le_def.mpr hfrom)
  have hlt := Nat.lt_size_self (M - m).toNat
  omega

/-- A buffer whose words are all that follows its header is decoded field by field. -/
theorem decode_eq_ok_iff {base : Native .int64} {bits count : Nat} (hpos : 0 < bits) (hbits : bits ≤ 64)
    {packed : List (BitVec 64)} {mask : BitVec 64} (hok : fieldMask 64 bits = .ok mask) {src : List (Native .int64)} :
    decode .int64 (storeHeader .int64 base bits count ++ storeWords 8 packed) src.length = .ok src ↔
      ∀ (i : Nat) (y : Native .int64), src[i]? = some y →
        unpackCode .int64 (bufferWords (storeWords 8 packed)) base
          ((mask.setWidth (8 * DataType.int64.typeSize)).setWidth 64) bits (i * bits) = .ok y := by
  by_cases hempty : src.length = 0
  · cases List.length_eq_zero_iff.mp hempty
    exact iff_of_true rfl fun i y hy => by cases hy
  · simp only [decode, hempty, if_false, loadHeader_storeHeader .int64 base (show bits < 2 ^ 8 by omega), bind_ok,
      hpos.ne', hok, fieldsFrom_eq_ok, true_and]

/-- Two codes or more: every value goes through the frame. -/
theorem restores_of_codes (reading : ShiftReading) {x : Native .int64} {rest : List (Native .int64)}
    {m M : Native .int64}
    (hbounds : codeBounds .int64 (zigZagEncode .int64 x) (rest.map (zigZagEncode .int64)) = (m, M)) (hne : m ≠ M) :
    Restores (encode .int64 (.gives reading)) (decode .int64) (x :: rest) ↔
      ∀ y ∈ x :: rest, throughFrame m y = y := by
  have hsize : (M - m).toNat.size ≤ 64 := Nat.size_le.mpr (BitVec.isLt (M - m))
  have hpos : 0 < (M - m).toNat.size := by
    rw [Nat.size_pos, Nat.pos_iff_ne_zero]
    intro hzero
    have hsub : M - m = 0#_ := BitVec.eq_of_toNat_eq hzero
    exact hne (by rw [← BitVec.sub_add_cancel M m, hsub, BitVec.zero_add])
  obtain ⟨packed, hpacked, hread⟩ := packAll_recovered hpos hsize (sub_lt_codeWidth hbounds)
  obtain ⟨mask, hok, hmask⟩ := fieldMask_wide hsize
  have hencode : encode .int64 (.gives reading) (x :: rest) =
      .ok (storeHeader .int64 (zigZagDecode .int64 m) (M - m).toNat.size (x :: rest).length ++
        storeWords 8 packed) := by
    have hsearch : searchWidth (.gives reading) (8 * DataType.int64.typeSize) (M - m).toNat = _ :=
      searchWidth_wide reading (BitVec.isLt (M - m))
    have hpack : packAll (M - m).toNat.size ((x :: rest).map fun y => zigZagEncode .int64 y - m) = .ok packed := hpacked
    simp only [encode, hbounds, hsearch, bind_ok, appendFields, if_neg hpos.ne', hpack, pure_eq_ok, List.length_map]
  have hfield : ∀ (i : Nat) (y : Native .int64), (x :: rest)[i]? = some y →
      unpackCode .int64 (bufferWords (storeWords 8 packed)) (zigZagDecode .int64 m)
        ((mask.setWidth (8 * DataType.int64.typeSize)).setWidth 64) (M - m).toNat.size (i * (M - m).toNat.size) =
          .ok (throughFrame m y) := by
    intro i y hy
    have hvalue : ((x :: rest).map fun y => zigZagEncode .int64 y - m)[i]? = some (zigZagEncode .int64 y - m) := by
      rw [List.getElem?_map, hy]
      rfl
    have hextract := hread _ _ (bufferWords_storeWords packed)
      ((hmask.setWidth (m := 8 * DataType.int64.typeSize) (.inl (by decide))).setWidth (m := 64) (.inl (by decide)))
      i _ hvalue
    rw [unpackCode, hextract]
    exact congrArg (fun d => Except.ok (zigZagDecode .int64 (zigZagDecode .int64 (zigZagDecode .int64 m) + d)))
      (BitVec.setWidth_eq _)
  rw [Restores, hencode]
  simp only [Except.ok.injEq, exists_eq_left']
  rw [decode_eq_ok_iff hpos hsize hok]
  constructor
  · intro h y hy
    obtain ⟨i, hi⟩ := List.mem_iff_getElem?.mp hy
    exact Except.ok.inj ((hfield i y hi).symm.trans (h i y hi))
  · intro h i y hi
    rw [hfield i y hi, h y (List.mem_of_getElem? hi)]

theorem toInt_nonneg_iff (x : Native .int64) : 0 ≤ x.toInt ↔ x.toNat < 2 ^ 63 := nonneg_iff x

/-- **A list comes back exactly if no number is below zero, and zero is among them or they are
all the same.** -/
theorem zigZag_restores_iff (reading : ShiftReading) (src : List (Native .int64)) :
    Restores (encode .int64 (.gives reading)) (decode .int64) src ↔
      (∀ x ∈ src, 0 ≤ x.toInt) ∧ (0 ∈ src ∨ ∀ x ∈ src, ∀ y ∈ src, x = y) := by
  cases src with
  | nil => exact iff_of_true ⟨_, rfl, rfl⟩ (by simp)
  | cons x rest =>
    simp only [toInt_nonneg_iff]
    obtain ⟨⟨m, M⟩, hbounds⟩ : ∃ b, codeBounds .int64 (zigZagEncode .int64 x) (rest.map (zigZagEncode .int64)) = b :=
      ⟨_, rfl⟩
    have hspec := codeBounds_spec (zigZagEncode .int64 x) (rest.map (zigZagEncode .int64))
    rw [hbounds, ← List.map_cons] at hspec
    obtain ⟨hlo, hhi, hall⟩ := hspec
    dsimp only at hlo hhi hall
    by_cases hone : ∀ y ∈ x :: rest, y = x
    · rw [restores_of_one_code _ hone]
      constructor
      · intro h
        refine ⟨fun y hy => by rwa [hone y hy], .inr fun y hy z hz => ?_⟩
        rw [hone y hy, hone z hz]
      · intro h
        exact h.1 x List.mem_cons_self
    · have hne : m ≠ M := by
        rintro rfl
        refine hone fun y hy => ?_
        have hy' := hall _ (List.mem_map_of_mem hy)
        have hx' := hall _ (List.mem_map_of_mem (List.mem_cons_self (a := x) (l := rest)))
        exact encode_injective (BitVec.eq_of_toNat_eq (by omega))
      have hother : ∃ y ∈ x :: rest, zigZagEncode .int64 y ≠ m := by
        obtain ⟨y, hy, hcode⟩ := List.mem_map.mp hhi
        exact ⟨y, hy, fun h => hne (h.symm.trans hcode)⟩
      rw [restores_of_codes reading hbounds hne, all_throughFrame_iff (List.mem_map.mp hlo)
        (fun y hy => (hall _ (List.mem_map_of_mem hy)).1) hother]
      refine and_congr_right fun _ => ⟨.inl, fun h => h.resolve_right fun hsame => ?_⟩
      exact hone fun y hy => hsame y hy x List.mem_cons_self

/-- Minus one comes back as the least number. -/
theorem minusOne_not_restores : ¬ ∀ reading (src : List (Native .int64)),
    Restores (encode .int64 (.gives reading)) (decode .int64) src := by
  intro h
  obtain ⟨data, hencode, hdecode⟩ := h .zero [-1]
  have hrun : (encode .int64 (.gives .zero) [-1] >>= fun data => decode .int64 data 1) = .ok [BitVec.intMin 64] := by
    decide +kernel
  rw [hencode, bind_ok] at hrun
  cases hdecode.symm.trans hrun

end ColumnarStore.Standalone.ZigZag
