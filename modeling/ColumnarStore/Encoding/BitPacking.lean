import ColumnarStore.Encoding.Width
import ColumnarStore.Foundation.Packing

/-! The bit-packing codec.

After the header come words as wide as the values, filled without gaps: a field may
end in the word after the one it begins in. The words are counted by the width, so a
block of one distinct value has none; the loop ORs its first value into them all the
same, and that access is out of bounds.

The factory builds this codec for the integer types only. -/
namespace ColumnarStore.Encoding.BitPacking
open Foundation Foundation.Packing Width
variable (t : DataType)

/-- The bits of a packed word, `Unsigned` of the source, and of a value. -/
abbrev wordBits : Nat := 8 * t.typeSize

/-! ### Encoding -/

/-- OR a value in at `bitPos`, into one word or into two. -/
def deposit (bits bitPos : Nat) (value : Native t) (packed : List (Native t)) :
    Outcome (List (Native t)) := do
  let word := bitPos / wordBits t
  let offset := bitPos % wordBits t
  let low ← orFault .outOfBounds (orWord packed word (value <<< offset))
  if offset + bits ≤ wordBits t then return low
  else orFault .outOfBounds (orWord low (word + 1) (value >>> (wordBits t - offset)))

/-- The loop over the values whose fields begin at `bitPos`. -/
def pack (bits : Nat) (minVal : Native t) :
    Nat → List (Native t) → List (Native t) → Outcome (List (Native t))
  | _, [], packed => .ok packed
  | bitPos, x :: rest, packed => do
    let packed ← deposit t bits bitPos (x - minVal) packed
    pack bits minVal (bitPos + bits) rest packed

/-- The number of words for `n` values. -/
def wordCount (bits n : Nat) : Nat := (n * bits + wordBits t - 1) / wordBits t

/-- No field is wider than a word. -/
theorem wordCount_le {bits : Nat} (hbits : bits ≤ wordBits t) (n : Nat) : wordCount t bits n ≤ n := by
  have hpos : 0 < wordBits t := Nat.mul_pos (by decide) t.typeSize_pos
  have hfields : n * bits ≤ n * wordBits t := Nat.mul_le_mul_left n hbits
  rw [wordCount, ← Nat.lt_add_one_iff, Nat.div_lt_iff_lt_mul hpos, Nat.succ_mul]
  omega

def encode : List (Native t) → Outcome (List UInt8)
  | [] => .ok []
  | x :: rest => do
    let (minVal, maxVal) := Native.bounds t x rest
    let bitsNeeded ← searchWidth (range t minVal maxVal)
    let bits := Min.min bitsNeeded (wordBits t)
    let zeros := List.replicate (wordCount t bits (rest.length + 1)) 0
    let packed ← pack t bits minVal 0 (x :: rest) zeros
    return storeHeader t minVal maxVal bits ++ storeWords t.typeSize packed

/-! ### Decoding -/

/-- The field at `bitPos`, out of the words behind the header. -/
def extract (src : List UInt8) (bits bitPos : Nat) : Outcome (BitVec 64) := do
  let word := bitPos / wordBits t
  let offset := bitPos % wordBits t
  let mask := (1#64 <<< bits) - 1#64
  let low ← orFault .outOfBounds (loadWord t.typeSize (src.drop (t.typeSize * word)))
  if offset + bits ≤ wordBits t then return (low >>> offset).setWidth 64 &&& mask
  else do
    let high ← orFault .outOfBounds (loadWord t.typeSize (src.drop (t.typeSize * (word + 1))))
    return ((low >>> offset).setWidth 64 ||| high.setWidth 64 <<< (wordBits t - offset)) &&& mask

def unpack (src : List UInt8) (minVal : Native t) (bits i : Nat) : Outcome (Native t) := do
  let value ← extract t src bits (i * bits)
  return minVal + value.setWidth (wordBits t)

def decode (data : List UInt8) (dst : List (Native t)) : Outcome (List (Native t)) :=
  if dst.length = 0 then .ok dst
  else do
    let (minVal, bits, src) ← loadHeader t data
    if 64 ≤ bits then .error .shiftWidth
    else (List.range dst.length).mapM (unpack t src minVal bits)

/-! ### The layout -/

theorem wordBits_pos : 0 < wordBits t := Nat.mul_pos (by decide) t.typeSize_pos

/-- A word that begins before the last bit is one of the array's. -/
theorem lt_wordCount {bits n k : Nat} (h : k * wordBits t < n * bits) : k < wordCount t bits n := by
  have hpos := wordBits_pos t
  rw [wordCount, Nat.lt_iff_add_one_le, Nat.le_div_iff_mul_le hpos, Nat.succ_mul]
  omega

theorem word_bounds {bits i n : Nat} (hbits : 0 < bits) (hi : i < n) :
    i * bits / wordBits t < wordCount t bits n ∧
      (wordBits t < i * bits % wordBits t + bits → i * bits / wordBits t + 1 < wordCount t bits n) := by
  have hdiv := Nat.div_add_mod (i * bits) (wordBits t)
  have hn : i * bits + bits ≤ n * bits := by
    rw [← Nat.succ_mul]
    exact Nat.mul_le_mul_right bits hi
  rw [Nat.mul_comm (wordBits t)] at hdiv
  refine ⟨lt_wordCount t (by omega), fun hcross => lt_wordCount t ?_⟩
  rw [Nat.succ_mul]
  omega

/-- The field of the `i`-th value. -/
def position (bits i : Nat) : Nat := i * bits

theorem position_eq (bits i : Nat) :
    position bits i = i * bits / wordBits t * wordBits t + i * bits % wordBits t := by
  rw [position, Nat.mul_comm _ (wordBits t), Nat.div_add_mod]

theorem position_next (bits i : Nat) : position bits i + bits ≤ position bits (i + 1) := by
  rw [position, position, Nat.succ_mul]

/-! ### Round trip -/

section Integers
variable {t : DataType}

/-- The loop stays inside the words and leaves each value in its field. -/
theorem pack_packed {bits : Nat} (h : 0 < bits) (minVal : Native t) (before rest packed : List (Native t))
    (hlen : packed.length = wordCount t bits (before.length + rest.length))
    (hfit : ∀ x ∈ rest, (x - minVal).toNat < 2 ^ bits)
    (hpacked : Packed (position bits) (before.map fun x => (x - minVal).toNat) packed) :
    ∃ packed', pack t bits minVal (before.length * bits) rest packed = .ok packed' ∧
      packed'.length = packed.length ∧
      Packed (position bits) ((before ++ rest).map fun x => (x - minVal).toNat) packed' := by
  induction rest generalizing before packed with
  | nil => exact ⟨packed, rfl, rfl, by rwa [List.append_nil]⟩
  | cons x rest ih =>
    have hx := hfit x (by simp)
    obtain ⟨hword, hnext⟩ := word_bounds t h (show before.length < before.length + (x :: rest).length by
      simp)
    rw [← hlen] at hword hnext
    have hoff : before.length * bits % wordBits t ≤ wordBits t := (Nat.mod_lt _ (wordBits_pos t)).le
    obtain ⟨packed₁, h₁⟩ := orWord_some hword ((x - minVal) <<< (before.length * bits % wordBits t))
    -- One word or two: either way the field is deposited whole.
    have hstep : ∃ packed₂, deposit t bits (before.length * bits) (x - minVal) packed = .ok packed₂ ∧
        Deposited (position bits before.length) (x - minVal).toNat packed packed₂ := by
      rw [position_eq t]
      by_cases hone : before.length * bits % wordBits t + bits ≤ wordBits t
      · refine ⟨packed₁, ?_, deposited_one hone hx h₁⟩
        simp only [deposit, h₁, orFault_some, bind_ok, if_pos hone, pure_eq_ok]
      · have hcross := hnext (by omega)
        rw [← length_orWord h₁] at hcross
        obtain ⟨packed₂, h₂⟩ := orWord_some hcross
          ((x - minVal) >>> (wordBits t - before.length * bits % wordBits t))
        refine ⟨packed₂, ?_, deposited_two hoff h₁ h₂⟩
        simp only [deposit, h₁, orFault_some, bind_ok, if_neg hone, h₂]
    obtain ⟨packed₂, h₂, hdeposit⟩ := hstep
    have hnow : Packed (position bits) ((before ++ [x]).map fun x => (x - minVal).toNat) packed₂ :=
      hpacked.deposit_map hdeposit
    obtain ⟨packed', hok, hlen', hall⟩ := ih (before ++ [x]) packed₂
      (by rw [hdeposit.1, hlen, List.length_append, List.length_singleton, List.length_cons,
        Nat.add_right_comm, Nat.add_assoc])
      (fun y hy => hfit y (List.mem_cons_of_mem _ hy)) hnow
    rw [List.length_append, List.length_singleton, Nat.succ_mul] at hok
    refine ⟨packed', ?_, hlen'.trans hdeposit.1, by simpa using hall⟩
    rw [pack, h₂, bind_ok, hok]

/-- Each value is read back from its field. -/
theorem unpack_packed {bits : Nat} (h : 0 < bits) (h' : bits < 64) (hwidth : bits ≤ wordBits t)
    (minVal : Native t) {src packed : List (Native t)}
    (hlen : packed.length = wordCount t bits src.length)
    (hfit : ∀ x ∈ src, (x - minVal).toNat < 2 ^ bits)
    (hpacked : Packed (position bits) (src.map fun x => (x - minVal).toNat) packed) {i : Nat}
    {x : Native t} (hx : src[i]? = some x) :
    unpack t (storeWords t.typeSize packed) minVal bits i = .ok x := by
  have hi : i < src.length := (List.getElem?_eq_some_iff.mp hx).1
  obtain ⟨hword, hnext⟩ := word_bounds t h hi
  rw [← hlen] at hword hnext
  have hoff : i * bits % wordBits t < wordBits t := Nat.mod_lt _ (wordBits_pos t)
  have hload : ∀ k (hk : k < packed.length),
      loadWord t.typeSize ((storeWords t.typeSize packed).drop (t.typeSize * k)) = some packed[k] :=
    fun k hk => loadWord_storeWords_self (List.getElem?_eq_getElem hk)
  have hfield : ∀ j < bits, bitAt packed (i * bits / wordBits t * wordBits t +
      (i * bits % wordBits t + j)) = (x - minVal).toNat.testBit j := by
    intro j hj
    rw [← Nat.add_assoc, ← position_eq t]
    exact hpacked.bitAt_map (position_next bits) hfit hx hj
  have hlow : ∀ j < bits, i * bits % wordBits t + j < wordBits t →
      packed[i * bits / wordBits t].getLsbD (i * bits % wordBits t + j) =
        (x - minVal).toNat.testBit j := by
    intro j hj hin
    rw [← hfield j hj, bitAt_window hin (List.getElem?_eq_getElem hword)]
  have hx' := hfit x (List.mem_of_getElem? hx)
  suffices hextract : ∃ v, extract t (storeWords t.typeSize packed) bits (i * bits) = .ok v ∧
      v.toNat = (x - minVal).toNat by
    obtain ⟨v, hok, hv⟩ := hextract
    rw [unpack, hok, bind_ok, pure_eq_ok]
    exact congrArg _ (add_setWidth_distance hv)
  by_cases hone : i * bits % wordBits t + bits ≤ wordBits t
  · refine ⟨_, ?_, read_one h' hx' fun j hj => hlow j hj (by omega)⟩
    simp only [extract, hload _ hword, orFault_some, bind_ok, if_pos hone, pure_eq_ok]
  · have hcross := hnext (by omega)
    refine ⟨_, ?_, read_two hoff.le h' hx' hlow (y := packed[i * bits / wordBits t + 1]) ?_⟩
    · simp only [extract, hload _ hword, hload _ hcross, orFault_some, bind_ok, if_neg hone, pure_eq_ok]
    · intro j hj hout
      have hin : i * bits % wordBits t + j - wordBits t < wordBits t := by omega
      rw [← hfield j hj, ← bitAt_window hin (List.getElem?_eq_getElem hcross),
        Nat.succ_mul (i * bits / wordBits t), Nat.add_assoc, Nat.add_sub_cancel' hout]

theorem length_deposit {bits bitPos : Nat} {value : Native t} {packed packed' : List (Native t)}
    (h : deposit t bits bitPos value packed = .ok packed') : packed'.length = packed.length := by
  obtain ⟨low, hlow, h⟩ := bind_eq_ok.mp h
  rw [← length_orWord (orFault_eq_ok.mp hlow)]
  split at h
  · cases h
    rfl
  · exact length_orWord (orFault_eq_ok.mp h)

theorem length_pack {bits bitPos : Nat} {minVal : Native t} {rest packed packed' : List (Native t)}
    (h : pack t bits minVal bitPos rest packed = .ok packed') : packed'.length = packed.length := by
  induction rest generalizing bitPos packed with
  | nil =>
    cases h
    rfl
  | cons x rest ih =>
    obtain ⟨packed₁, h₁, h⟩ := bind_eq_ok.mp h
    rw [ih h, length_deposit h₁]

/-- A block of one distinct value has no words to put its first value in. -/
theorem encode_of_spread_zero {x : Native t} {rest : List (Native t)} (h : spread t (x :: rest) = 0) :
    encode t (x :: rest) = .error .outOfBounds := by
  have hsearch : searchWidth (range t (Native.bounds t x rest).1 (Native.bounds t x rest).2) = .ok 0 :=
    searchWidth_eq_ok.mpr ⟨h.trans_lt (by decide), by rw [show range t _ _ = 0 from h, Nat.size_zero]⟩
  have hempty : wordCount t 0 (rest.length + 1) = 0 := by
    have hpos := wordBits_pos t
    rw [wordCount, Nat.mul_zero, Nat.zero_add]
    exact Nat.div_eq_of_lt (by omega)
  simp only [encode, hsearch, bind_ok, Nat.zero_min, hempty, List.replicate_zero, pack, deposit]
  rfl

variable (ht : t.isInteger = true)
include ht

/-- What an encoder that returns has appended to the buffer. -/
theorem encode_eq_ok {x : Native t} {rest : List (Native t)} {bytes : List UInt8}
    (h : encode t (x :: rest) = .ok bytes) :
    spread t (x :: rest) < 2 ^ 63 ∧ spread t (x :: rest) ≠ 0 ∧
      bytes.length = t.typeSize + t.typeSize + 1 +
        t.typeSize * wordCount t (spread t (x :: rest)).size (rest.length + 1) := by
  have hne : spread t (x :: rest) ≠ 0 := by
    intro hzero
    cases (encode_of_spread_zero hzero).symm.trans h
  obtain ⟨bits, hbits, h⟩ := bind_eq_ok.mp h
  obtain ⟨hrange, rfl⟩ := searchWidth_eq_ok.mp hbits
  have hmin : Min.min (range t (Native.bounds t x rest).1 (Native.bounds t x rest).2).size (wordBits t) =
      (spread t (x :: rest)).size := Nat.min_eq_left (size_spread_le ht (x :: rest))
  replace h : (pack t (spread t (x :: rest)).size (Native.bounds t x rest).1 0 (x :: rest)
      (List.replicate (wordCount t (spread t (x :: rest)).size (rest.length + 1)) 0) >>= fun packed =>
        pure (storeHeader t (Native.bounds t x rest).1 (Native.bounds t x rest).2 (spread t (x :: rest)).size ++
          storeWords t.typeSize packed)) = .ok bytes := by
    rw [← hmin]
    exact h
  obtain ⟨packed, hpacked, h⟩ := bind_eq_ok.mp h
  cases h
  refine ⟨hrange, hne, ?_⟩
  rw [List.length_append, length_storeHeader, length_storeWords, length_pack hpacked, List.length_replicate]

/-- A block of at least two distinct values comes back. -/
theorem decode_encode {x : Native t} {rest : List (Native t)} (hzero : spread t (x :: rest) ≠ 0)
    (hspread : spread t (x :: rest) < 2 ^ 63) :
    ∃ bytes, encode t (x :: rest) = .ok bytes ∧
      ∀ dst : List (Native t), dst.length = rest.length + 1 → decode t bytes dst = .ok (x :: rest) := by
  have hsearch : searchWidth (range t (Native.bounds t x rest).1 (Native.bounds t x rest).2) =
      .ok (spread t (x :: rest)).size := searchWidth_eq_ok.mpr ⟨hspread, rfl⟩
  have hpos : 0 < (spread t (x :: rest)).size := Nat.size_pos.mpr (Nat.pos_of_ne_zero hzero)
  have hsize : (spread t (x :: rest)).size ≤ 63 := Nat.size_le.mpr hspread
  have hfit : ∀ y ∈ x :: rest, (y - (Native.bounds t x rest).1).toNat < 2 ^ (spread t (x :: rest)).size :=
    fun y hy => sub_lt_width ht hy
  obtain ⟨packed, hpack, hlen, hpacked⟩ := pack_packed hpos (Native.bounds t x rest).1 [] (x :: rest)
    (List.replicate (wordCount t (spread t (x :: rest)).size (rest.length + 1)) 0) (by simp) hfit
    (packed_zeros _ _)
  rw [List.length_nil, Nat.zero_mul] at hpack
  rw [List.length_replicate] at hlen
  refine ⟨storeHeader t (Native.bounds t x rest).1 (Native.bounds t x rest).2 (spread t (x :: rest)).size ++
    storeWords t.typeSize packed, ?_, fun dst h => ?_⟩
  · simp only [encode, hsearch, bind_ok, Nat.min_eq_left (size_spread_le ht (x :: rest)), hpack,
      pure_eq_ok]
  · have hdst : dst.length ≠ 0 := by omega
    rw [decode, if_neg hdst, loadHeader_storeHeader t _ _ (by omega), bind_ok]
    simp only [show ¬ 64 ≤ (spread t (x :: rest)).size by omega, if_false]
    rw [mapM_range_eq_ok]
    exact ⟨h.symm, fun i y hy =>
      unpack_packed hpos (by omega) (size_spread_le ht (x :: rest)) _ hlen hfit hpacked hy⟩

/-- **A block comes back that has two distinct values and, if they are 64 bits wide,
distances whose top bit is clear.** -/
theorem bitPack_roundTrips {src : List (Native t)} (hdistinct : ∃ y ∈ src, ∃ z ∈ src, y ≠ z)
    (hspread : t = .int64 → SpreadBelow t (2 ^ 63) src) : RoundTrips (encode t) (decode t) src := by
  cases src with
  | nil =>
    obtain ⟨y, hy, -⟩ := hdistinct
    cases hy
  | cons x rest =>
    have hbelow : spread t (x :: rest) < 2 ^ 63 := by
      rcases DataType.eq_of_isInteger ht with rfl | rfl
      · have hsize : (spread .int32 (x :: rest)).size ≤ 32 := size_spread_le ht (x :: rest)
        exact (Nat.size_le.mp hsize).trans (by decide)
      · exact (spread_lt_iff ht x rest _).mpr (hspread rfl)
    exact decode_encode ht ((spread_ne_zero_iff ht x rest).mpr hdistinct) hbelow

end Integers

/-- Of two bits each, the fields leave none over. -/
theorem bitPack_roundTrips_int32 : RoundTrips (encode .int32) (decode .int32) [7, 4, 5, 4] :=
  bitPack_roundTrips (t := .int32) rfl ⟨7, by decide, 4, by decide, by decide⟩ (fun h => by cases h)

/-! ### The words -/

/-- No index into the packed words is out of bounds, on the way in or on the way out. -/
def InBounds (src : List (Native t)) : Prop :=
  encode t src ≠ .error .outOfBounds ∧
    ∀ bytes, encode t src = .ok bytes → ∀ dst : List (Native t), dst.length = src.length →
      decode t bytes dst ≠ .error .outOfBounds

/-- **The words are indexed in bounds exactly if two values differ.** -/
theorem inBounds_iff (x : Native .int32) (rest : List (Native .int32)) :
    InBounds .int32 (x :: rest) ↔ ∃ y ∈ x :: rest, ∃ z ∈ x :: rest, y ≠ z := by
  constructor
  · intro h
    rw [← spread_ne_zero_iff rfl]
    exact fun hzero => h.1 (encode_of_spread_zero hzero)
  · intro h
    have hsize : (spread .int32 (x :: rest)).size ≤ 32 := size_spread_le rfl (x :: rest)
    obtain ⟨bytes, hencode, hdecode⟩ := decode_encode (t := .int32) rfl ((spread_ne_zero_iff rfl x rest).mpr h)
      ((Nat.size_le.mp hsize).trans (by decide))
    refine ⟨fun herror => ?_, fun bytes' hbytes' dst hdst herror => ?_⟩
    · cases hencode.symm.trans herror
    · cases hencode.symm.trans hbytes'
      cases (hdecode dst hdst).symm.trans herror

theorem equal_not_inBounds : ¬ InBounds .int32 [5, 5] := fun h => h.1 (by decide)

end ColumnarStore.Encoding.BitPacking
