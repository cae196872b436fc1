import ColumnarStore.Encoding.BitPacking
import ColumnarStore.Encoding.Dictionary
import ColumnarStore.Encoding.FrameOfReference
import ColumnarStore.Encoding.RunLength

/-! The codec factory.

`createEncoder` and `createDecoder` choose a codec by encoding and data type at run
time. A pair they have no codec for gets the plain 32-bit one. For an integer type
all six encodings of a segment have a codec of their own, and what a decoder makes of
its encoder's output depends on the values only (`restored_of_fits`, `fits_of_restored`). -/
namespace ColumnarStore.Encoding
open Foundation

/-! ### The factory -/

def plainInt32Encoder : Encoder := .of .int32 (Plain.encode .int32)

def createEncoder (enc : EncodingType) (dt : DataType) : Encoder :=
  match enc, dt with
  | .plain, .int32 | .plain, .int64 | .plain, .float | .plain, .double => .of dt (Plain.encode dt)
  | .rle, .int32 | .rle, .int64 | .rle, .float | .rle, .double => .of dt (RunLength.encode dt)
  | .delta, .int32 | .delta, .int64 => .of dt (Delta.encode dt)
  | .frameOfReference, .int32 | .frameOfReference, .int64 => .of dt (FrameOfReference.encode dt)
  | .dictionary, .int32 | .dictionary, .int64 | .dictionary, .float | .dictionary, .double =>
    .of dt (Dictionary.encode dt)
  | .bitPack, .int32 | .bitPack, .int64 => .of dt (BitPacking.encode dt)
  | _, _ => plainInt32Encoder

def plainInt32Decoder : Decoder := .of .int32 (Plain.decode .int32)

def createDecoder (enc : EncodingType) (dt : DataType) : Decoder :=
  match enc, dt with
  | .plain, .int32 | .plain, .int64 | .plain, .float | .plain, .double => .of dt (Plain.decode dt)
  | .rle, .int32 | .rle, .int64 | .rle, .float | .rle, .double => .of dt (RunLength.decode dt)
  | .delta, .int32 | .delta, .int64 => .of dt (Delta.decode dt)
  | .frameOfReference, .int32 | .frameOfReference, .int64 => .of dt (FrameOfReference.decode dt)
  | .dictionary, .int32 | .dictionary, .int64 | .dictionary, .float | .dictionary, .double =>
    .of dt (Dictionary.decode dt)
  | .bitPack, .int32 | .bitPack, .int64 => .of dt (BitPacking.decode dt)
  | _, _ => plainInt32Decoder

/-! ### The codecs of an integer column -/

/-- The six encodings with a codec for the integer types. -/
def hasIntegerCodec : EncodingType → Bool
  | .zstd => false
  | .lz4 => false
  | _ => true

theorem hasIntegerCodec_plain : hasIntegerCodec .plain = true := rfl

theorem hasIntegerCodec_delta : hasIntegerCodec .delta = true := rfl

section Integers
variable (t : DataType)

def encodeValues : EncodingType → List (Native t) → Outcome (List UInt8)
  | .rle => RunLength.encode t
  | .delta => Delta.encode t
  | .frameOfReference => FrameOfReference.encode t
  | .dictionary => Dictionary.encode t
  | .bitPack => BitPacking.encode t
  | _ => Plain.encode t

def decodeValues : EncodingType → List UInt8 → List (Native t) → Outcome (List (Native t))
  | .rle => RunLength.decode t
  | .delta => Delta.decode t
  | .frameOfReference => FrameOfReference.decode t
  | .dictionary => Dictionary.decode t
  | .bitPack => BitPacking.decode t
  | _ => Plain.decode t

variable {t} (ht : t.isInteger = true) {enc : EncodingType} (henc : hasIntegerCodec enc = true)
include ht henc

theorem createEncoder_integer : createEncoder enc t = .of t (encodeValues t enc) := by
  rcases DataType.eq_of_isInteger ht with rfl | rfl <;> cases enc <;> first | rfl | cases henc

theorem createDecoder_integer : createDecoder enc t = .of t (decodeValues t enc) := by
  rcases DataType.eq_of_isInteger ht with rfl | rfl <;> cases enc <;> first | rfl | cases henc

end Integers

/-! ### Every decoder fills the array it is given -/

section Lengths
variable {t : DataType} {data : List UInt8} {dst values : List (Native t)}

theorem length_orFault_loadWords {n : Nat} {src : List (Native t)}
    (h : (orFault .outOfBounds (loadWords t.typeSize n data) : Outcome (List (Native t))) = .ok src) :
    src.length = n := length_loadWords (orFault_eq_ok.mp h)

theorem length_fillRuns {pairs : Nat} (h : RunLength.fillRuns t pairs data dst = .ok values) :
    values.length = dst.length := by
  induction pairs generalizing data dst values with
  | zero =>
    cases h
    rfl
  | succ pairs ih =>
    rw [RunLength.fillRuns] at h
    split at h
    · next hempty =>
      cases h
      rw [hempty, List.length_nil]
    · obtain ⟨value, -, h⟩ := bind_eq_ok.mp h
      obtain ⟨runLength, -, h⟩ := bind_eq_ok.mp h
      obtain ⟨rest, hrest, h⟩ := bind_eq_ok.mp h
      cases h
      rw [List.length_append, List.length_replicate, ih hrest, List.length_drop]
      omega

theorem length_sums (prev : Native t) (xs : List (Native t)) :
    (Delta.sums t prev xs).length = xs.length := by
  induction xs generalizing prev with
  | nil => rfl
  | cons d rest ih => simp [Delta.sums, ih]

theorem length_decodeDelta (h : Delta.decode t data dst = .ok values) : values.length = dst.length := by
  unfold Delta.decode at h
  split at h
  · cases h
    rfl
  · obtain ⟨src, hsrc, h⟩ := bind_eq_ok.mp h
    rw [← length_orFault_loadWords hsrc]
    cases src with
    | nil =>
      cases h
      rfl
    | cons x rest =>
      cases h
      rw [List.length_cons, length_sums, List.length_cons]

theorem length_mapM_range {f : Nat → Outcome (Native t)}
    (h : (List.range dst.length).mapM f = .ok values) : values.length = dst.length := by
  rw [← (mapM_eq_ok.mp h).length_eq, List.length_range]

theorem length_decodeDictionary (h : Dictionary.decode t data dst = .ok values) :
    values.length = dst.length := by
  unfold Dictionary.decode at h
  split at h
  · cases h
    rfl
  · obtain ⟨dictSize, -, h⟩ := bind_eq_ok.mp h
    obtain ⟨bits, -, h⟩ := bind_eq_ok.mp h
    split at h
    · obtain ⟨first, -, h⟩ := bind_eq_ok.mp h
      cases h
      exact List.length_replicate
    · exact length_mapM_range h

theorem length_decodeFrame (h : FrameOfReference.decode t data dst = .ok values) :
    values.length = dst.length := by
  unfold FrameOfReference.decode at h
  split at h
  · cases h
    rfl
  · obtain ⟨⟨minVal, bits, src⟩, -, h⟩ := bind_eq_ok.mp h
    dsimp only at h
    split at h
    · cases h
      exact List.length_replicate
    · split at h
      · cases h
      · exact length_mapM_range h

theorem length_decodeBitPack (h : BitPacking.decode t data dst = .ok values) :
    values.length = dst.length := by
  unfold BitPacking.decode at h
  split at h
  · cases h
    rfl
  · obtain ⟨⟨minVal, bits, src⟩, -, h⟩ := bind_eq_ok.mp h
    dsimp only at h
    split at h
    · cases h
    · exact length_mapM_range h

theorem length_decodeValues {enc : EncodingType} (h : decodeValues t enc data dst = .ok values) :
    values.length = dst.length := by
  cases enc with
  | rle => exact length_fillRuns h
  | delta => exact length_decodeDelta h
  | dictionary => exact length_decodeDictionary h
  | frameOfReference => exact length_decodeFrame h
  | bitPack => exact length_decodeBitPack h
  | plain => exact length_orFault_loadWords h
  | zstd => exact length_orFault_loadWords h
  | lz4 => exact length_orFault_loadWords h

end Lengths

/-! ### When a block comes back -/

/-- The encoded size of `src`, divided by the size of a value, is the number of its
values, and no codec drops anything: what a reader needs that takes the count from
the size. `src` is not empty. -/
def SizeFits (t : DataType) (enc : EncodingType) (src : List (Native t)) : Prop :=
  let n := src.length
  let size := t.typeSize
  let width := (Width.spread t src).size
  match enc with
  | .rle => n < 2 ^ 32 ∧ (size + 4) * (1 + RunLength.changes t (src.headD 0) src.tail) / size = n
  | .dictionary => src.dedup.length ≤ 256 ∧ (5 + size * src.dedup.length + n) / size = n
  | .frameOfReference => Width.spread t src < 2 ^ 63 ∧
    (size + size + 1 + if Width.spread t src = 0 then 0
      else 8 * FrameOfReference.wordCount width n) / size = n
  | .bitPack => Width.spread t src < 2 ^ 63 ∧ Width.spread t src ≠ 0 ∧
    (size + size + 1 + size * BitPacking.wordCount t width n) / size = n
  | _ => True

def Fits (t : DataType) (enc : EncodingType) (src : List (Native t)) : Prop :=
  src = [] ∨ SizeFits t enc src

instance (t : DataType) (enc : EncodingType) (src : List (Native t)) : Decidable (SizeFits t enc src) :=
  match enc with
  | .rle => inferInstanceAs (Decidable (_ ∧ _))
  | .dictionary => inferInstanceAs (Decidable (_ ∧ _))
  | .frameOfReference => inferInstanceAs (Decidable (_ ∧ _))
  | .bitPack => inferInstanceAs (Decidable (_ ∧ _))
  | .plain => inferInstanceAs (Decidable True)
  | .delta => inferInstanceAs (Decidable True)
  | .zstd => inferInstanceAs (Decidable True)
  | .lz4 => inferInstanceAs (Decidable True)

instance (t : DataType) (enc : EncodingType) (src : List (Native t)) : Decidable (Fits t enc src) :=
  inferInstanceAs (Decidable (_ ∨ _))

/-- The block is encoded, its size gives its count, and decoding that many values
over zeros restores it. -/
def Restored (t : DataType) (enc : EncodingType) (src : List (Native t)) : Prop :=
  ∃ bytes, encodeValues t enc src = .ok bytes ∧ bytes.length / t.typeSize = src.length ∧
    decodeValues t enc bytes (List.replicate src.length 0) = .ok src

theorem restored_plain {t : DataType} (src : List (Native t)) : Restored t .plain src := by
  refine ⟨storeWords t.typeSize src, rfl, ?_, Plain.decode_encode t src _ (by simp)⟩
  rw [length_storeWords, Nat.mul_div_cancel_left _ t.typeSize_pos]

theorem restored_delta {t : DataType} (src : List (Native t)) : Restored t .delta src := by
  obtain ⟨bytes, h⟩ := Delta.exists_encode_ok t src
  refine ⟨bytes, h, ?_, Delta.decode_encode t h (by simp)⟩
  rw [Delta.encode_length t h, Nat.mul_div_cancel_left _ t.typeSize_pos]

section Integers
variable {t : DataType} (ht : t.isInteger = true)
include ht

theorem restored_nil (enc : EncodingType) : Restored t enc [] := by
  cases enc with
  | rle => exact ⟨[], rfl, Nat.zero_div _, RunLength.decode_encode ht rfl rfl⟩
  | _ => exact ⟨[], rfl, Nat.zero_div _, rfl⟩

variable {x : Native t} {rest : List (Native t)}

theorem restored_rle (h : SizeFits t .rle (x :: rest)) : Restored t .rle (x :: rest) := by
  obtain ⟨hn, hcount⟩ := h
  refine ⟨_, rfl, ?_, RunLength.decode_encode ht rfl (by simp)⟩
  rw [List.length_cons] at hn
  rw [RunLength.length_storePairs, RunLength.length_runs ht x 1 rest (by omega)]
  exact hcount

theorem sizeFits_rle
    (hsize : ∀ bytes, encodeValues t .rle (x :: rest) = .ok bytes → bytes.length < 2 ^ 32)
    (h : Restored t .rle (x :: rest)) : SizeFits t .rle (x :: rest) := by
  have hlen : ((RunLength.runs t x 1 rest).flatMap (RunLength.storePair t)).length =
      (t.typeSize + 4) * (RunLength.runs t x 1 rest).length := RunLength.length_storePairs t _
  have hsmall := hsize _ rfl
  obtain ⟨bytes, h, hcount, -⟩ := h
  cases h
  rw [hlen] at hcount hsmall
  have hn : (x :: rest).length < 2 ^ 32 := by
    rw [← hcount]
    exact (Nat.div_le_self _ _).trans_lt hsmall
  refine ⟨hn, ?_⟩
  rw [List.headD_cons, List.tail_cons, ← RunLength.length_runs ht x 1 rest, hcount]
  rw [List.length_cons] at hn
  omega

theorem restored_dictionary (h : SizeFits t .dictionary (x :: rest)) :
    Restored t .dictionary (x :: rest) := by
  refine ⟨_, rfl, ?_, Dictionary.decode_encode ht rfl h.1 (by simp)⟩
  rw [Dictionary.encode_length ht rfl]
  exact h.2

theorem sizeFits_dictionary
    (hsize : ∀ bytes, encodeValues t .dictionary (x :: rest) = .ok bytes → bytes.length < 2 ^ 32)
    (h : Restored t .dictionary (x :: rest)) : SizeFits t .dictionary (x :: rest) := by
  obtain ⟨bytes, h, hcount, hdecode⟩ := h
  have hlen := Dictionary.encode_length ht h
  have hsmall := hsize bytes h
  rw [hlen] at hcount hsmall
  refine ⟨?_, hcount⟩
  by_contra hmany
  have hd : (x :: rest).dedup.length < 2 ^ 32 := by
    have := Nat.le_mul_of_pos_left (x :: rest).dedup.length t.typeSize_pos
    omega
  exact Dictionary.decode_encode_cut ht h (not_le.mp hmany) hd (by simp) _ hdecode

theorem restored_bitPack (h : SizeFits t .bitPack (x :: rest)) : Restored t .bitPack (x :: rest) := by
  obtain ⟨hspread, hzero, hcount⟩ := h
  obtain ⟨bytes, hbytes, hdecode⟩ := BitPacking.decode_encode ht hzero hspread
  refine ⟨bytes, hbytes, ?_, hdecode _ (by simp)⟩
  rw [(BitPacking.encode_eq_ok ht hbytes).2.2]
  exact hcount

theorem sizeFits_bitPack (h : Restored t .bitPack (x :: rest)) : SizeFits t .bitPack (x :: rest) := by
  obtain ⟨bytes, h, hcount, -⟩ := h
  obtain ⟨hspread, hzero, hlen⟩ := BitPacking.encode_eq_ok ht h
  rw [hlen] at hcount
  exact ⟨hspread, hzero, hcount⟩

/-- A block whose size gives its count has three fields a word or more, so that its
distances leave the sign bit clear. -/
theorem spread_lt_of_sizeFits (h : SizeFits t .frameOfReference (x :: rest)) :
    Width.spread t (x :: rest) < 2 ^ (8 * t.typeSize - 1) := by
  obtain ⟨hspread, hcount⟩ := h
  rcases DataType.typeSize_of_isInteger ht with hsize | hsize
  · rw [hsize]
    by_contra hge
    have hbits : 32 ≤ (Width.spread t (x :: rest)).size := by
      by_contra hlt
      exact hge (Nat.size_le.mp (by omega))
    have hbits' : (Width.spread t (x :: rest)).size ≤ 63 := Nat.size_le.mpr hspread
    have hzero : Width.spread t (x :: rest) ≠ 0 := fun h => by simp [h] at hge
    rw [hsize, if_neg hzero, FrameOfReference.wordCount] at hcount
    have hper : 1 ≤ 64 / (Width.spread t (x :: rest)).size ∧
        64 / (Width.spread t (x :: rest)).size ≤ 2 :=
      ⟨Nat.div_pos (by omega) (by omega),
        (Nat.div_le_div_left hbits (by decide)).trans (by decide)⟩
    generalize 64 / (Width.spread t (x :: rest)).size = v at *
    rcases (by omega : v = 1 ∨ v = 2) with rfl | rfl <;> omega
  · rw [hsize]
    exact hspread

theorem restored_frameOfReference (h : SizeFits t .frameOfReference (x :: rest)) :
    Restored t .frameOfReference (x :: rest) := by
  obtain ⟨bytes, hbytes, hdecode⟩ := FrameOfReference.decode_encode ht (spread_lt_of_sizeFits ht h)
  refine ⟨bytes, hbytes, ?_, hdecode _ (by simp)⟩
  rw [(FrameOfReference.encode_eq_ok hbytes).2]
  exact h.2

omit ht in
theorem sizeFits_frameOfReference (h : Restored t .frameOfReference (x :: rest)) :
    SizeFits t .frameOfReference (x :: rest) := by
  obtain ⟨bytes, h, hcount, -⟩ := h
  obtain ⟨hspread, hlen⟩ := FrameOfReference.encode_eq_ok h
  rw [hlen] at hcount
  exact ⟨hspread, hcount⟩

/-! ### Any codec -/

variable {enc : EncodingType} (henc : hasIntegerCodec enc = true) {src : List (Native t)}
include henc

/-- A block whose size gives its count comes back. -/
theorem restored_of_fits (h : Fits t enc src) : Restored t enc src := by
  cases src with
  | nil => exact restored_nil ht enc
  | cons x rest =>
    rw [Fits, or_iff_right (by simp)] at h
    cases enc with
    | plain => exact restored_plain _
    | delta => exact restored_delta _
    | rle => exact restored_rle ht h
    | dictionary => exact restored_dictionary ht h
    | bitPack => exact restored_bitPack ht h
    | frameOfReference => exact restored_frameOfReference ht h
    | zstd => cases henc
    | lz4 => cases henc

/-- No other block of less than 2^32 bytes does. -/
theorem fits_of_restored
    (hsize : ∀ bytes, encodeValues t enc src = .ok bytes → bytes.length < 2 ^ 32)
    (h : Restored t enc src) : Fits t enc src := by
  cases src with
  | nil => exact .inl rfl
  | cons x rest =>
    refine .inr ?_
    cases enc with
    | plain => trivial
    | delta => trivial
    | rle => exact sizeFits_rle ht hsize h
    | dictionary => exact sizeFits_dictionary ht hsize h
    | bitPack => exact sizeFits_bitPack ht h
    | frameOfReference => exact sizeFits_frameOfReference h
    | zstd => cases henc
    | lz4 => cases henc

end Integers

/-! ### How long a block can become -/

section Sizes
variable {t : DataType} (ht : t.isInteger = true) {x : Native t} {rest : List (Native t)} {bytes : List UInt8}
include ht

/-- The words of a block take no more bytes than its values. -/
theorem length_frame_le (h : FrameOfReference.encode t (x :: rest) = .ok bytes) :
    bytes.length ≤ (x :: rest).length * t.typeSize + 17 := by
  obtain ⟨hspread, hlen⟩ := FrameOfReference.encode_eq_ok h
  by_cases hzero : Width.spread t (x :: rest) = 0
  · rw [if_pos hzero] at hlen
    rcases DataType.typeSize_of_isInteger ht with hsize | hsize <;> omega
  rw [if_neg hzero] at hlen
  have hpos : 0 < (Width.spread t (x :: rest)).size := Nat.size_pos.mpr (Nat.pos_of_ne_zero hzero)
  have hwidth : (Width.spread t (x :: rest)).size ≤ 63 := Nat.size_le.mpr hspread
  have htype := Width.size_spread_le ht (x :: rest)
  generalize (Width.spread t (x :: rest)).size = bits at hlen hpos hwidth htype
  rcases DataType.typeSize_of_isInteger ht with hsize | hsize
  · -- At 32 bits or less there are two fields in a word.
    have hper : 2 ≤ 64 / bits := by
      rw [Nat.le_div_iff_mul_le hpos]
      omega
    have hroom : rest.length + 1 ≤ (rest.length + 2) / 2 * (64 / bits) :=
      (show rest.length + 1 ≤ (rest.length + 2) / 2 * 2 by omega).trans (Nat.mul_le_mul_left _ hper)
    have hwords := FrameOfReference.wordCount_le hroom
    rw [List.length_cons, hsize]
    omega
  · have hper : 1 ≤ 64 / bits := Nat.div_pos (by omega) hpos
    have hwords := FrameOfReference.wordCount_le (Nat.le_mul_of_pos_right (rest.length + 1) hper)
    rw [List.length_cons, hsize]
    omega

/-- Values that take less than 2^32 bytes are encoded into less than 2^32 more. -/
theorem length_encodeValues_lt {enc : EncodingType} {src : List (Native t)} (h : encodeValues t enc src = .ok bytes)
    (hsmall : src.length * t.typeSize < 2 ^ 32) : bytes.length < src.length * t.typeSize + 2 ^ 32 := by
  have hplain : Plain.encode t src = .ok bytes → bytes.length < src.length * t.typeSize + 2 ^ 32 := by
    intro h
    rw [← Except.ok.inj h, length_storeWords, Nat.mul_comm]
    omega
  cases src with
  | nil =>
    have hnil : encodeValues t enc [] = .ok [] := by cases enc <;> rfl
    cases hnil.symm.trans h
    exact Nat.lt_add_left _ (by decide)
  | cons x rest =>
    have hfour : (x :: rest).length * 4 ≤ (x :: rest).length * t.typeSize :=
      Nat.mul_le_mul_left _ (by rcases DataType.typeSize_of_isInteger ht with hsize | hsize <;> omega)
    cases enc with
    | rle =>
      have hruns := RunLength.length_runs_le t x 1 rest
      rw [← Except.ok.inj h, RunLength.length_storePairs]
      calc (t.typeSize + 4) * (RunLength.runs t x 1 rest).length
          ≤ (t.typeSize + 4) * (x :: rest).length := Nat.mul_le_mul_left _ (by rw [List.length_cons]; omega)
        _ = (x :: rest).length * t.typeSize + (x :: rest).length * 4 := by rw [Nat.mul_comm, Nat.mul_add]
        _ < (x :: rest).length * t.typeSize + 2 ^ 32 := by omega
    | delta =>
      have hlen : bytes.length = t.typeSize * (x :: rest).length := Delta.encode_length t h
      rw [hlen, Nat.mul_comm]
      omega
    | dictionary =>
      have hdistinct : t.typeSize * (x :: rest).dedup.length ≤ (x :: rest).length * t.typeSize := by
        rw [Nat.mul_comm]
        exact Nat.mul_le_mul_right _ (List.dedup_sublist _).length_le
      rw [Dictionary.encode_length ht h]
      rw [List.length_cons] at hfour hsmall hdistinct ⊢
      omega
    | frameOfReference =>
      have hle := length_frame_le ht h
      omega
    | bitPack =>
      obtain ⟨-, -, hlen⟩ := BitPacking.encode_eq_ok ht h
      have hwords := Nat.mul_le_mul_left t.typeSize
        (BitPacking.wordCount_le t (Width.size_spread_le ht (x :: rest)) (rest.length + 1))
      have hheader : t.typeSize ≤ 8 := by
        rcases DataType.typeSize_of_isInteger ht with hsize | hsize <;> omega
      rw [hlen, List.length_cons, Nat.mul_comm _ t.typeSize]
      omega
    | plain | zstd | lz4 => exact hplain h

end Sizes

end ColumnarStore.Encoding
