import ColumnarStore.Foundation.Lanes
import ColumnarStore.Standalone.For

/-! The AVX-512 decoder of the frame-of-reference codec.

It takes blocks of 16 fields. At widths from 1 to 16 it loads 64 bytes from the word a
block begins in, keeps the low 128 bits, repeats them in all four quarters of a register
and shifts lane `j` down by `j` widths. A lane has 32 bits and `j` widths soon exceed
them, lane `j` is not where field `j` is, and the place of the block within its first
word is not taken into account. From 17 bits on, and for the tail, it reads each field as
the scalar decoder does. -/
namespace ColumnarStore.Standalone.For
open Foundation Foundation.Packing Encoding

/-! ### The decoder -/

/-- `_mm512_loadu_si512(packed + word)`. -/
def loadRegister (fetch : Words) (word : Nat) : Outcome (Lanes 8 64) := do
  let words ← (List.range 8).mapM fun k => orFault .outOfBounds (fetch (word + k))
  return fun k => words.getD k 0

/-- The low four 32-bit lanes in every quarter, each lane shifted by its own count and masked. -/
def laneDeltas (load : Lanes 8 64) (shifts : Lanes 16 32) (mask : BitVec 32) : Lanes 16 32 :=
  let low : Lanes 4 32 := Lanes.castLow (by decide) (Lanes.split 2 32 load)
  let shifted := Lanes.srlv (Lanes.broadcast low) shifts
  Lanes.and shifted (Lanes.set1 mask)

def laneFields (load : Lanes 8 64) (shifts : Lanes 16 32) (mask base : BitVec 32) : Lanes 16 32 :=
  Lanes.add (laneDeltas load shifts mask) (Lanes.set1 base)

/-- The 16 fields from the `i`-th on. -/
def vectorBlock (fetch : Words) (base : BitVec 32) (mask : BitVec 64) (bits i : Nat) : Outcome (List (BitVec 32)) :=
  let bitStart := i * bits
  let wordStart := bitStart / 64
  let offset := bitStart % 64
  let scalar := (List.range 16).mapM fun j => unpack fetch base mask bits ((i + j) * bits)
  if offset + 16 * bits ≤ 512 ∧ bits ≤ 32 then do
    let load ← loadRegister fetch wordStart
    if bits = 1 then return List.ofFn (laneFields load (fun j => BitVec.ofNat 32 j) 1 base)
    else if bits ≤ 8 then
      return List.ofFn (laneFields load (fun j => BitVec.ofNat 32 (j * bits)) (mask.setWidth 32) base)
    else if bits ≤ 16 then
      return List.ofFn (laneFields load (fun j => BitVec.ofNat 32 (j * bits)) (mask.setWidth 32) base)
    else scalar
  else scalar

/-- `DecodeAvx512` for a type of four bytes, in an AVX-512 build. -/
def decodeAvx512 (data : List UInt8) (count : Nat) : Outcome (List (Native .int32)) := do
  let (base, bits, _storedCount, src) ← loadHeader .int32 data
  if bits = 0 then return List.replicate count base
  else do
    let mask ← fieldMask 64 bits
    blocked 16 count (vectorBlock (bufferWords src) base mask bits) fun i =>
      unpack (bufferWords src) base mask bits (i * bits)

/-! ### A block -/

/-- What is loaded from inside the words. -/
def registerAt (words : List (BitVec 64)) (word : Nat) : Lanes 8 64 := fun k => words.getD (word + k) 0

theorem loadRegister_ok {fetch : Words} {words : List (BitVec 64)}
    (hfetch : ∀ k x, words[k]? = some x → fetch k = some x) {word : Nat} (h : word + 8 ≤ words.length) :
    loadRegister fetch word = .ok (registerAt words word) := by
  have hload : ((List.range 8).mapM fun k => orFault Fault.outOfBounds (fetch (word + k))) =
      .ok ((List.range 8).map fun k => words.getD (word + k) 0) := by
    refine mapM_ok fun k hk => ?_
    have hin : word + k < words.length := by
      have := List.mem_range.mp hk
      omega
    rw [hfetch _ _ (List.getElem?_eq_getElem hin), orFault_some, List.getD_eq_getElem _ _ hin]
  rw [loadRegister, hload, bind_ok, pure_eq_ok]
  refine congrArg _ (funext fun k => ?_)
  rw [getD_map_range k.isLt]
  rfl

/-- Up to 16 bits a block comes from one load. -/
theorem vectorBlock_lanes {fetch : Words} {words : List (BitVec 64)}
    (hfetch : ∀ k x, words[k]? = some x → fetch k = some x) {bits i : Nat} (h : 0 < bits) (h' : bits ≤ 16)
    (hload : i * bits / 64 + 8 ≤ words.length) (base : BitVec 32) {mask : BitVec 64} (hmask : IsMask bits mask) :
    vectorBlock fetch base mask bits i = .ok (List.ofFn (laneFields (registerAt words (i * bits / 64))
      (fun j => BitVec.ofNat 32 (j * bits)) (mask.setWidth 32) base)) := by
  have hfits : i * bits % 64 + 16 * bits ≤ 512 ∧ bits ≤ 32 := by omega
  simp only [vectorBlock, if_pos hfits, loadRegister_ok hfetch hload, bind_ok]
  by_cases hone : bits = 1
  · subst hone
    have hlow : mask.setWidth 32 = 1#32 := by
      refine (hmask.setWidth (.inl (by decide))).unique fun j hj => ?_
      simp [BitVec.getLsbD_one]
    simp only [if_true, pure_eq_ok, Nat.mul_one, hlow]
    rfl
  · rw [if_neg hone]
    split
    · rfl
    · rfl

/-- From 17 bits on a block is read field by field. -/
theorem vectorBlock_scalar {fetch : Words} {words : List (BitVec 64)}
    (hfetch : ∀ k x, words[k]? = some x → fetch k = some x) {bits i : Nat} (h : 16 < bits)
    (hload : i * bits / 64 + 8 ≤ words.length) (base : BitVec 32) (mask : BitVec 64) :
    vectorBlock fetch base mask bits i =
      (List.range 16).mapM fun j => unpack fetch base mask bits ((i + j) * bits) := by
  rw [vectorBlock]
  split
  · rw [loadRegister_ok hfetch hload, bind_ok, if_neg (by omega), if_neg (by omega), if_neg (by omega)]
  · rfl

/-! ### Lanes and fields -/

theorem getLsbD_registerAt (words : List (BitVec 64)) (word : Nat) (k : Fin 8) {j : Nat} (hj : j < 64) :
    (registerAt words word k).getLsbD j = bitAt words ((word + k) * 64 + j) := by
  obtain ⟨hdiv, hmod⟩ := div_mod_window (k := word + k) hj
  rw [bitAt, hdiv, hmod]
  rfl

/-- Lane `j` holds bits of quarter `j % 4` of the first two words. -/
theorem getLsbD_laneDeltas (words : List (BitVec 64)) (word : Nat) {bits : Nat} (hbits : bits ≤ 16)
    {mask : BitVec 64} (hmask : IsMask bits mask) (j : Fin 16) {k : Nat} (hk : k < 32) :
    (laneDeltas (registerAt words word) (fun j => BitVec.ofNat 32 (j * bits)) (mask.setWidth 32) j).getLsbD k =
      (decide (k < bits) && (decide (j * bits + k < 32) &&
        bitAt words (word * 64 + 32 * (j % 4) + (j * bits + k)))) := by
  have hcount : j.val * bits < 2 ^ 32 := by
    have := Nat.mul_le_mul (Nat.le_of_lt_succ j.isLt) hbits
    omega
  have hlane := hmask.setWidth (m := 32) (.inl (by decide)) k hk
  rw [laneDeltas, Lanes.getLsbD_and_srlv, Lanes.set1, hlane, toNat_ofNat_of_lt hcount, Lanes.broadcast, Lanes.castLow,
    Lanes.getLsbD_split, Bool.and_comm]
  congr 1
  by_cases hin : j * bits + k < 32
  · have hquarter : ((Fin.castLE (show 4 ≤ 8 * 2 by decide) (Fin.ofNat 4 j)).modNat : Nat) = j % 4 % 2 := rfl
    have hhalf : ((Fin.castLE (show 4 ≤ 8 * 2 by decide) (Fin.ofNat 4 j)).divNat : Nat) = j % 4 / 2 := rfl
    rw [getLsbD_registerAt _ _ _ (by omega), hquarter, hhalf]
    congr 2
    omega
  · simp [hin]

/-- The bits of every field in a whole block are those of its lane: of quarter `j % 4` of the
128 bits that begin with the block's word, from bit `j * bits` on, and zeros from bit 32 on. -/
def LanesAgree (bits count : Nat) (words : List (BitVec 64)) : Prop :=
  ∀ b < count / 16, ∀ j < 16, ∀ k < bits,
    bitAt words ((b * 16 + j) * bits + k) =
      (decide (j * bits + k < 32) && bitAt words (b * 16 * bits / 64 * 64 + 32 * (j % 4) + (j * bits + k)))

/-- Whatever the width, lane 1 is not where field 1 is: all contents agree only where there is no block. -/
theorem lanesAgree_forall_iff {bits count n : Nat} (h : 0 < bits) (h' : bits ≤ 16) (hn : 0 < n) :
    (∀ words : List (BitVec 64), words.length = n → LanesAgree bits count words) ↔ count < 16 := by
  constructor
  · intro hall
    by_contra hblock
    -- Only the lowest bit of field 1 is set.
    have hagree := hall (BitVec.twoPow 64 bits :: List.replicate (n - 1) 0) (by simp; omega) 0 (by omega) 1 (by decide)
      0 h
    have hset : bitAt (BitVec.twoPow 64 bits :: List.replicate (n - 1) 0) (0 * 64 + bits) = true := by
      rw [bitAt_window (by omega) rfl, BitVec.getLsbD_twoPow]
      simp
      omega
    have hclear : bitAt (BitVec.twoPow 64 bits :: List.replicate (n - 1) 0) (0 * 64 + (32 + bits)) = false := by
      rw [bitAt_window (by omega) rfl, BitVec.getLsbD_twoPow]
      simp
    have hfield : (0 * 16 + 1) * bits + 0 = 0 * 64 + bits := by omega
    have hlane : 0 * 16 * bits / 64 * 64 + 32 * (1 % 4) + (1 * bits + 0) = 0 * 64 + (32 + bits) := by
      omega
    rw [hlane, hfield, hset, hclear, Bool.and_false] at hagree
    cases hagree
  · intro hfew words _ b hb
    omega

/-- A field is what its lane holds if they agree bit by bit. -/
theorem unpack_eq_lane_iff {fetch : Words} {words : List (BitVec 64)}
    (hfetch : ∀ k x, words[k]? = some x → fetch k = some x) {bits i word : Nat} (h : 0 < bits) (h' : bits ≤ 16)
    (base : BitVec 32) {mask : BitVec 64} (hmask : IsMask bits mask) (j : Fin 16)
    (hend : (i + j) * bits + bits ≤ 64 * words.length) :
    unpack fetch base mask bits ((i + j) * bits) = .ok (laneFields (registerAt words word)
        (fun j => BitVec.ofNat 32 (j * bits)) (mask.setWidth 32) base j) ↔
      ∀ k < bits, bitAt words ((i + j) * bits + k) =
        (decide (j * bits + k < 32) && bitAt words (word * 64 + 32 * (j % 4) + (j * bits + k))) := by
  obtain ⟨v, hread, hbits⟩ := extract_ok hfetch hmask h (by omega) hend
  have hfield : ∀ k < 32, (v.setWidth 32).getLsbD k = (decide (k < bits) && bitAt words ((i + j) * bits + k)) := by
    intro k hk
    rw [BitVec.getLsbD_setWidth, hbits k (by omega), decide_eq_true hk, Bool.true_and]
  have hlane := fun k (hk : k < 32) => getLsbD_laneDeltas words word h' hmask j hk
  have hcancel : laneFields (registerAt words word) (fun j => BitVec.ofNat 32 (j * bits)) (mask.setWidth 32) base j -
      base = laneDeltas (registerAt words word) (fun j => BitVec.ofNat 32 (j * bits)) (mask.setWidth 32) j :=
    BitVec.add_sub_cancel _ _
  rw [unpack_eq_ok, hcancel]
  constructor
  · rintro ⟨e, he, heq⟩ k hk
    cases hread.symm.trans he
    have hbit := congrArg (fun x => BitVec.getLsbD x k) heq
    simpa only [hfield k (by omega), hlane k (by omega), decide_eq_true hk, Bool.true_and] using hbit
  · intro hagree
    refine ⟨v, hread, BitVec.eq_of_getLsbD_eq fun k hk => ?_⟩
    rw [hfield k hk, hlane k hk]
    by_cases hin : k < bits
    · rw [hagree k hin]
    · simp [hin]

/-- The blocks hold the fields just when the lanes do. -/
theorem blocks_eq_fields_iff {fetch : Words} {words : List (BitVec 64)}
    (hfetch : ∀ k x, words[k]? = some x → fetch k = some x) {bits count : Nat} (h : 0 < bits) (h' : bits ≤ 16)
    (base : BitVec 32) {mask : BitVec 64} (hmask : IsMask bits mask)
    (hend : ∀ i < count, i * bits + bits ≤ 64 * words.length)
    (hloads : ∀ b < count / 16, b * 16 * bits / 64 + 8 ≤ words.length) {f : Nat → BitVec 32}
    (hf : ∀ i < count, unpack fetch base mask bits (i * bits) = .ok (f i)) :
    (blocked 16 count (vectorBlock fetch base mask bits) fun i => unpack fetch base mask bits (i * bits)) =
      .ok ((List.range count).map f) ↔ LanesAgree bits count words := by
  rw [blocked_eq_ok_iff (fun b hb => vectorBlock_lanes hfetch h h' (hloads b hb) base hmask) hf]
  refine forall_congr' fun b => forall_congr' fun hb => Fin.forall_iff.trans ?_
  refine forall_congr' fun j => forall_congr' fun hj => ?_
  have hlt : b * 16 + j < count := by omega
  rw [← unpack_eq_lane_iff hfetch h h' base hmask ⟨j, hj⟩ (hend _ hlt), hf _ hlt, Except.ok.injEq]

/-! ### The decoders side by side -/

/-- A width other than 0 is decoded in blocks with a tail. -/
theorem decodeAvx512_fields {data src : List UInt8} {base : Native .int32} {bits storedCount : Nat} (count : Nat)
    (hheader : loadHeader .int32 data = .ok (base, bits, storedCount, src)) (hpos : 0 < bits) {mask : BitVec 64}
    (hok : fieldMask 64 bits = .ok mask) :
    decodeAvx512 data count = blocked 16 count (vectorBlock (bufferWords src) base mask bits) fun i =>
      unpack (bufferWords src) base mask bits (i * bits) := by
  rw [decodeAvx512, hheader, bind_ok]
  simp only [hpos.ne', if_false, hok, bind_ok]
  rfl

/-- **Both decoders write the same just when every field of a whole block is the content of its
lane, save at width 0 and from 17 bits on, where they always do.** -/
theorem for_avx512_agrees_iff {data src : List UInt8} {base : Native .int32} {bits storedCount count : Nat}
    {words : List (BitVec 64)} (hheader : loadHeader .int32 data = .ok (base, bits, storedCount, src))
    (hbits : bits ≤ 32) (hwords : loadWords 8 words.length src = some words)
    (hfields : packedWords bits count ≤ words.length)
    (hloads : ∀ b < count / 16, b * 16 * bits / 64 + 8 ≤ words.length) :
    (∃ values, decode .int32 data count = .ok values ∧ decodeAvx512 data count = .ok values) ↔
      bits = 0 ∨ 16 < bits ∨ LanesAgree bits count words := by
  by_cases hzero : bits = 0
  · subst hzero
    refine iff_of_true ⟨_, decode_zero count hheader, ?_⟩ (.inl rfl)
    rw [decodeAvx512, hheader, bind_ok]
    exact if_pos rfl
  · have hpos := Nat.pos_of_ne_zero hzero
    have hfetch := bufferWords_eq hwords
    obtain ⟨mask, hok, hmask⟩ := fieldMask_wide (show bits ≤ 64 by omega)
    have hend : ∀ i < count, i * bits + bits ≤ 64 * words.length := fun i hi =>
      (field_le_packedWords hi).trans (Nat.mul_le_mul_left 64 hfields)
    have hread : ∀ i < count, ∃ x, unpack (bufferWords src) base mask bits (i * bits) = .ok x := fun i hi =>
      unpack_ok hfetch hpos (by omega) (hend i hi) base mask
    obtain ⟨f, hf⟩ := exists_read hread
    rw [decode_fields (t := .int32) rfl count hheader hpos hok, decodeAvx512_fields count hheader hpos hok,
      fieldsFrom_ok hf]
    rcases Nat.lt_or_ge 16 bits with hwide | hnarrow
    · refine iff_of_true ⟨_, rfl, ?_⟩ (.inr (.inl hwide))
      exact blocked_singles_ok (fun b hb => vectorBlock_scalar hfetch hwide (hloads b hb) base mask) hf
    · have hnever : ¬ (bits = 0 ∨ 16 < bits) := by omega
      rw [← or_assoc, or_iff_right hnever, ← blocks_eq_fields_iff hfetch hpos hnarrow base hmask hend hloads hf]
      constructor
      · intro h
        obtain ⟨values, hscalar, hvector⟩ := h
        cases hscalar
        exact hvector
      · intro hvector
        exact ⟨_, rfl, hvector⟩

/-- Sixteen fields of one bit, all of them zero. -/
theorem zeroBits_agree : (∃ values,
    decode .int32 (storeHeader .int32 7 1 16 ++ storeWords 8 (List.replicate 8 0#64)) 16 = .ok values ∧
      decodeAvx512 (storeHeader .int32 7 1 16 ++ storeWords 8 (List.replicate 8 0#64)) 16 = .ok values) ↔
    1 = 0 ∨ 16 < 1 ∨ LanesAgree 1 16 (List.replicate 8 0#64) :=
  for_avx512_agrees_iff (loadHeader_storeHeader .int32 7 (by decide) 16 _) (by decide)
    (loadWords_storeWords_self 8 (List.replicate 8 0#64)) (by decide) (by decide)

/-- Of sixteen fields of one bit the second is set. Lane 1 looks for it in the upper half of the word. -/
theorem secondBit_not_agree :
    ¬ ∀ (data src : List UInt8) (base : Native .int32) (bits storedCount count : Nat) (words : List (BitVec 64)),
      loadHeader .int32 data = .ok (base, bits, storedCount, src) → bits ≤ 32 →
        loadWords 8 words.length src = some words → packedWords bits count ≤ words.length →
          (∀ b < count / 16, b * 16 * bits / 64 + 8 ≤ words.length) →
            ∃ values, decode .int32 data count = .ok values ∧ decodeAvx512 data count = .ok values := by
  intro h
  obtain ⟨values, hscalar, hvector⟩ := h
    (storeHeader .int32 0 1 16 ++ storeWords 8 (2#64 :: List.replicate 7 0#64)) _ 0 1 16 16 _
    (loadHeader_storeHeader .int32 0 (by decide) 16 _) (by decide)
    (loadWords_storeWords_self 8 (2#64 :: List.replicate 7 0#64)) (by decide) (by decide)
  have hone : decode .int32 (storeHeader .int32 0 1 16 ++ storeWords 8 (2#64 :: List.replicate 7 0#64)) 16 =
      .ok (0 :: 1 :: List.replicate 14 0) := by
    decide +kernel
  have hnone : decodeAvx512 (storeHeader .int32 0 1 16 ++ storeWords 8 (2#64 :: List.replicate 7 0#64)) 16 =
      .ok (List.replicate 16 0) := by
    decide +kernel
  cases hscalar.symm.trans hone
  cases hvector.symm.trans hnone

end ColumnarStore.Standalone.For
