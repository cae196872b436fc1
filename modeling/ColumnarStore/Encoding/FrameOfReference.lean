import ColumnarStore.Encoding.Width
import ColumnarStore.Foundation.Packing

/-! The frame-of-reference codec.

After the header come 64-bit words, each filled with as many whole fields as fit;
a block of one distinct value has width 0 and no words. A distance is widened to 64
bits with its sign before it is shifted into place, so a distance whose own sign
bit is set would spill over the fields after it.

The factory builds this codec for the integer types only. -/
namespace ColumnarStore.Encoding.FrameOfReference
open Foundation Foundation.Packing Width
variable (t : DataType)

/-! ### Encoding -/

/-- The loop over the values from the `i`-th on. -/
def pack (bits valuesPerWord : Nat) (minVal : Native t) :
    Nat → List (Native t) → List (BitVec 64) → Outcome (List (BitVec 64))
  | _, [], packed => .ok packed
  | i, x :: rest, packed => do
    let value := (x - minVal).signExtend 64
    let shift := i % valuesPerWord * bits
    let packed ← orFault .outOfBounds (orWord packed (i / valuesPerWord) (value <<< shift))
    pack bits valuesPerWord minVal (i + 1) rest packed

/-- The packed words of `src` at a width other than 0. -/
def packAll (bits : Nat) (minVal : Native t) (src : List (Native t)) : Outcome (List (BitVec 64)) :=
  let valuesPerWord := 64 / bits
  let words := (src.length + valuesPerWord - 1) / valuesPerWord
  pack t bits valuesPerWord minVal 0 src (List.replicate words 0)

def encode : List (Native t) → Outcome (List UInt8)
  | [] => .ok []
  | x :: rest => do
    let (minVal, maxVal) := Native.bounds t x rest
    let bits ← searchWidth (range t minVal maxVal)
    if bits = 0 then return storeHeader t minVal maxVal bits
    else do
      let packed ← packAll t bits minVal (x :: rest)
      return storeHeader t minVal maxVal bits ++ storeWords 8 packed

/-! ### Decoding -/

/-- The `i`-th value, out of the words behind the header. -/
def unpack (src : List UInt8) (minVal : Native t) (bits i : Nat) : Outcome (Native t) := do
  let valuesPerWord := 64 / bits
  let packed ← orFault .outOfBounds (loadWord 8 (src.drop (8 * (i / valuesPerWord))))
  let value := (packed >>> (i % valuesPerWord * bits)) &&& ((1#64 <<< bits) - 1#64)
  return minVal + value.setWidth (8 * t.typeSize)

def decode (data : List UInt8) (dst : List (Native t)) : Outcome (List (Native t)) :=
  if dst.length = 0 then .ok dst
  else do
    let (minVal, bits, src) ← loadHeader t data
    if bits = 0 then return List.replicate dst.length minVal
    else if 64 ≤ bits then .error .shiftWidth
    else (List.range dst.length).mapM (unpack t src minVal bits)

/-! ### The layout -/

/-- Where the `i`-th field begins. -/
def position (bits i : Nat) : Nat := i / (64 / bits) * 64 + i % (64 / bits) * bits

theorem valuesPerWord_pos {bits : Nat} (h : 0 < bits) (h' : bits < 64) : 0 < 64 / bits :=
  Nat.div_pos h'.le h

/-- Every field ends before the next begins, and within its word. -/
theorem position_next {bits : Nat} (h : 0 < bits) (h' : bits < 64) (i : Nat) :
    position bits i + bits ≤ position bits (i + 1) := by
  have hper := valuesPerWord_pos h h'
  have hword : 64 / bits * bits ≤ 64 := Nat.div_mul_le_self 64 bits
  have hi := Nat.div_add_mod i (64 / bits)
  have hmod := Nat.mod_lt i hper
  unfold position
  generalize 64 / bits = v at *
  rcases Nat.lt_or_ge (i % v + 1) v with hlt | hge
  · have hnext : (i + 1) / v = i / v ∧ (i + 1) % v = i % v + 1 := by
      rw [Nat.div_mod_unique hper]
      exact ⟨by omega, hlt⟩
    rw [hnext.1, hnext.2, Nat.succ_mul, Nat.add_assoc]
  · have heq : i % v + 1 = v := by omega
    have hnext : (i + 1) / v = i / v + 1 ∧ (i + 1) % v = 0 := by
      rw [Nat.div_mod_unique hper, Nat.mul_succ]
      exact ⟨by omega, hper⟩
    have hfull : i % v * bits + bits ≤ 64 := by
      rw [← Nat.succ_mul]
      exact (Nat.mul_le_mul_right bits heq.le).trans hword
    rw [hnext.1, hnext.2, Nat.succ_mul]
    omega

theorem field_fits {bits : Nat} (h : 0 < bits) (h' : bits < 64) (i : Nat) :
    i % (64 / bits) * bits + bits ≤ 64 := by
  rw [← Nat.succ_mul]
  exact (Nat.mul_le_mul_right bits (Nat.mod_lt i (valuesPerWord_pos h h'))).trans
    (Nat.div_mul_le_self 64 bits)

/-- The number of words for `n` values. -/
def wordCount (bits n : Nat) : Nat := (n + 64 / bits - 1) / (64 / bits)

/-- Words that have room for `n` fields are enough. -/
theorem wordCount_le {bits n words : Nat} (hroom : n ≤ words * (64 / bits)) : wordCount bits n ≤ words := by
  rcases Nat.eq_zero_or_pos (64 / bits) with hnone | hper
  · rw [wordCount, hnone, Nat.div_zero]
    exact Nat.zero_le words
  · rw [wordCount, ← Nat.lt_add_one_iff, Nat.div_lt_iff_lt_mul hper, Nat.succ_mul]
    omega

theorem word_lt_wordCount {bits i n : Nat} (h : 0 < bits) (h' : bits < 64) (hi : i < n) :
    i / (64 / bits) < wordCount bits n := by
  have hper := valuesPerWord_pos h h'
  unfold wordCount
  generalize 64 / bits = v at *
  rw [Nat.lt_iff_add_one_le, ← Nat.add_div_right _ hper]
  exact Nat.div_le_div_right (by omega)

/-! ### Round trip -/

section Integers
variable {t : DataType}

/-- The loop stays inside the words and leaves each value in its field. -/
theorem pack_packed {bits : Nat} (h : 0 < bits) (h' : bits < 64) (hwidth : bits < 8 * t.typeSize)
    (minVal : Native t) (before rest : List (Native t)) (packed : List (BitVec 64))
    (hlen : packed.length = wordCount bits (before.length + rest.length))
    (hfit : ∀ x ∈ rest, (x - minVal).toNat < 2 ^ bits)
    (hpacked : Packed (position bits) (before.map fun x => (x - minVal).toNat) packed) :
    ∃ packed', pack t bits (64 / bits) minVal before.length rest packed = .ok packed' ∧
      packed'.length = packed.length ∧
      Packed (position bits) ((before ++ rest).map fun x => (x - minVal).toNat) packed' := by
  induction rest generalizing before packed with
  | nil => exact ⟨packed, rfl, rfl, by rwa [List.append_nil]⟩
  | cons x rest ih =>
    have hx := hfit x (by simp)
    -- The sign bit of the distance is clear, so widening it keeps its value.
    have hvalue := toNat_signExtend hwidth h' hx
    have hword : before.length / (64 / bits) < packed.length := by
      rw [hlen]
      exact word_lt_wordCount h h' (by simp)
    obtain ⟨packed₁, h₁⟩ := orWord_some hword
      ((x - minVal).signExtend 64 <<< (before.length % (64 / bits) * bits))
    have hdeposit := deposited_one (field_fits h h' before.length) (by rw [hvalue]; exact hx) h₁
    rw [hvalue] at hdeposit
    have hnext : Packed (position bits) ((before ++ [x]).map fun x => (x - minVal).toNat) packed₁ :=
      hpacked.deposit_map hdeposit
    obtain ⟨packed', hok, hlen', hall⟩ := ih (before ++ [x]) packed₁
      (by rw [hdeposit.1, hlen, List.length_append, List.length_singleton, List.length_cons,
        Nat.add_right_comm, Nat.add_assoc])
      (fun y hy => hfit y (List.mem_cons_of_mem _ hy)) hnext
    rw [List.length_append, List.length_singleton] at hok
    refine ⟨packed', ?_, hlen'.trans hdeposit.1, by simpa using hall⟩
    rw [pack, h₁, orFault_some, bind_ok, hok]

/-- Each value is read back from its word. -/
theorem unpack_packed {bits : Nat} (h : 0 < bits) (h' : bits < 64) (minVal : Native t)
    {src : List (Native t)} {packed : List (BitVec 64)}
    (hlen : packed.length = wordCount bits src.length)
    (hfit : ∀ x ∈ src, (x - minVal).toNat < 2 ^ bits)
    (hpacked : Packed (position bits) (src.map fun x => (x - minVal).toNat) packed) {i : Nat}
    {x : Native t} (hx : src[i]? = some x) :
    unpack t (storeWords 8 packed) minVal bits i = .ok x := by
  have hi : i < src.length := (List.getElem?_eq_some_iff.mp hx).1
  have hword : i / (64 / bits) < packed.length := by
    rw [hlen]
    exact word_lt_wordCount h h' hi
  have hload := loadWord_storeWords_self (n := 8) (List.getElem?_eq_getElem hword)
  have hfield : ∀ j < bits, packed[i / (64 / bits)].getLsbD (i % (64 / bits) * bits + j) =
      (x - minVal).toNat.testBit j := by
    intro j hj
    have hfits := field_fits h h' i
    rw [← bitAt_window (by omega) (List.getElem?_eq_getElem hword), ← Nat.add_assoc]
    exact hpacked.bitAt_map (position_next h h') hfit hx hj
  have hread := read_one h' (hfit x (List.mem_of_getElem? hx)) hfield
  rw [BitVec.setWidth_eq] at hread
  simp only [unpack, hload, orFault_some, bind_ok, pure_eq_ok]
  exact congrArg _ (add_setWidth_distance hread)

theorem packAll_packed {bits : Nat} (h : 0 < bits) (h' : bits < 64) (hwidth : bits < 8 * t.typeSize)
    (minVal : Native t) (src : List (Native t)) (hfit : ∀ x ∈ src, (x - minVal).toNat < 2 ^ bits) :
    ∃ packed, packAll t bits minVal src = .ok packed ∧ packed.length = wordCount bits src.length ∧
      Packed (position bits) (src.map fun x => (x - minVal).toNat) packed := by
  obtain ⟨packed, hok, hlen, hall⟩ := pack_packed h h' hwidth minVal [] src
    (List.replicate (wordCount bits src.length) 0) (by simp) hfit (packed_zeros _ _)
  rw [List.length_replicate] at hlen
  exact ⟨packed, hok, hlen, hall⟩

theorem length_pack {bits valuesPerWord i : Nat} {minVal : Native t} {rest : List (Native t)}
    {packed packed' : List (BitVec 64)}
    (h : pack t bits valuesPerWord minVal i rest packed = .ok packed') :
    packed'.length = packed.length := by
  induction rest generalizing i packed with
  | nil =>
    cases h
    rfl
  | cons x rest ih =>
    obtain ⟨packed₁, h₁, h⟩ := bind_eq_ok.mp h
    rw [ih h, length_orWord (orFault_eq_ok.mp h₁)]

/-- Two distinct values or more are packed, at the width that was found. -/
theorem encode_of_width {x : Native t} {rest : List (Native t)} (hspread : spread t (x :: rest) < 2 ^ 63)
    (hne : (spread t (x :: rest)).size ≠ 0) :
    encode t (x :: rest) = packAll t (spread t (x :: rest)).size (Native.bounds t x rest).1 (x :: rest) >>=
      fun packed => .ok (storeHeader t (Native.bounds t x rest).1 (Native.bounds t x rest).2
        (spread t (x :: rest)).size ++ storeWords 8 packed) := by
  have hsearch : searchWidth (range t (Native.bounds t x rest).1 (Native.bounds t x rest).2) =
      .ok (spread t (x :: rest)).size := searchWidth_eq_ok.mpr ⟨hspread, rfl⟩
  simp only [encode, hsearch, bind_ok, if_neg hne, pure_eq_ok]

theorem decode_storeHeader (lo hi : Native t) {bits : Nat} (h : 0 < bits) (h' : bits < 64) (src : List UInt8)
    {dst : List (Native t)} (hdst : dst.length ≠ 0) :
    decode t (storeHeader t lo hi bits ++ src) dst = (List.range dst.length).mapM (unpack t src lo bits) := by
  rw [decode, if_neg hdst, loadHeader_storeHeader t lo hi (by omega), bind_ok]
  exact (if_neg (by omega)).trans (if_neg (by omega))

/-- What an encoder that returns has appended to the buffer. -/
theorem encode_eq_ok {x : Native t} {rest : List (Native t)} {bytes : List UInt8}
    (h : encode t (x :: rest) = .ok bytes) :
    spread t (x :: rest) < 2 ^ 63 ∧
      bytes.length = t.typeSize + t.typeSize + 1 +
        if spread t (x :: rest) = 0 then 0
        else 8 * wordCount (spread t (x :: rest)).size (rest.length + 1) := by
  obtain ⟨bits, hbits, h⟩ := bind_eq_ok.mp h
  obtain ⟨hrange, rfl⟩ := searchWidth_eq_ok.mp hbits
  refine ⟨hrange, ?_⟩
  change (if (spread t (x :: rest)).size = 0 then _ else _) = _ at h
  simp only [Nat.size_eq_zero] at h
  split at h
  · next hzero =>
    cases h
    simp [hzero]
  · next hzero =>
    obtain ⟨packed, hpacked, h⟩ := bind_eq_ok.mp h
    cases h
    have hlen : packed.length = wordCount (spread t (x :: rest)).size (rest.length + 1) := by
      rw [length_pack hpacked, List.length_replicate]
      rfl
    rw [if_neg hzero, List.length_append, length_storeHeader, length_storeWords, hlen]

/-- A block whose greatest distance leaves its sign bit clear comes back. -/
theorem decode_encode (ht : t.isInteger = true) {src : List (Native t)}
    (hspread : spread t src < 2 ^ (8 * t.typeSize - 1)) :
    ∃ bytes, encode t src = .ok bytes ∧
      ∀ dst : List (Native t), dst.length = src.length → decode t bytes dst = .ok src := by
  cases src with
  | nil =>
    refine ⟨[], rfl, fun dst hdst => ?_⟩
    cases List.length_eq_zero_iff.mp hdst
    rfl
  | cons x rest =>
    have hsize : (spread t (x :: rest)).size ≤ 8 * t.typeSize - 1 := Nat.size_le.mpr hspread
    have hwidth : 8 * t.typeSize ≤ 64 ∧ 0 < 8 * t.typeSize := by
      rcases DataType.typeSize_of_isInteger ht with h | h <;> omega
    have h63 : spread t (x :: rest) < 2 ^ 63 :=
      hspread.trans_le (Nat.pow_le_pow_right (by decide) (by omega))
    have hsearch : searchWidth (range t (Native.bounds t x rest).1 (Native.bounds t x rest).2) =
        .ok (spread t (x :: rest)).size := searchWidth_eq_ok.mpr ⟨h63, rfl⟩
    have hdst : ∀ dst : List (Native t), dst.length = (x :: rest).length → dst.length ≠ 0 := by
      intro dst h
      simp [h]
    by_cases hzero : (spread t (x :: rest)).size = 0
    · refine ⟨storeHeader t (Native.bounds t x rest).1 (Native.bounds t x rest).2 0, ?_, fun dst h => ?_⟩
      · simp [encode, hsearch, hzero]
      · have hload := loadHeader_storeHeader t (Native.bounds t x rest).1 (Native.bounds t x rest).2
          (show 0 < 256 by decide) []
        rw [List.append_nil] at hload
        rw [decode, if_neg (hdst dst h), hload, h]
        simp only [bind_ok, if_true, pure_eq_ok, List.length_cons]
        rw [← eq_replicate_of_spread ht (Nat.size_eq_zero.mp hzero)]
    · have hpos : 0 < (spread t (x :: rest)).size := Nat.pos_of_ne_zero hzero
      have hlt : (spread t (x :: rest)).size < 64 := by omega
      have hfit : ∀ y ∈ x :: rest, (y - (Native.bounds t x rest).1).toNat < 2 ^ (spread t (x :: rest)).size :=
        fun y hy => sub_lt_width ht hy
      obtain ⟨packed, hpack, hlen, hpacked⟩ :=
        packAll_packed hpos hlt (by omega) (Native.bounds t x rest).1 (x :: rest) hfit
      refine ⟨storeHeader t (Native.bounds t x rest).1 (Native.bounds t x rest).2 (spread t (x :: rest)).size ++
        storeWords 8 packed, ?_, fun dst h => ?_⟩
      · rw [encode_of_width h63 hzero, hpack, bind_ok]
      · rw [decode_storeHeader _ _ hpos hlt _ (hdst dst h), mapM_range_eq_ok]
        exact ⟨h.symm, fun i y hy => unpack_packed hpos hlt _ hlen hfit hpacked hy⟩

end Integers

end ColumnarStore.Encoding.FrameOfReference
