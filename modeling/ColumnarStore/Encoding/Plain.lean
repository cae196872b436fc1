import ColumnarStore.Types
import ColumnarStore.Foundation.LittleEndian
import ColumnarStore.Foundation.Outcome

/-! The codec interface, and the two codecs that store one word per value.

A codec works on raw memory: `Encode` reads `count` values and appends bytes to a
buffer, `Decode` reads a buffer and overwrites an array of `count` values. What it
does to typed values is a function of its own; `Encoder.of` and `Decoder.of` are the
casts around it. -/
namespace ColumnarStore.Encoding
open Foundation

/-! ### Casts -/

/-- From the memory of an array and a count, the bytes appended to the buffer. -/
abbrev Encoder := List UInt8 → Nat → Outcome (List UInt8)

/-- From a buffer, the memory of an array and a count, that memory afterwards. -/
abbrev Decoder := List UInt8 → List UInt8 → Nat → Outcome (List UInt8)

def Encoder.of (t : DataType) (encode : List (Native t) → Outcome (List UInt8)) : Encoder :=
  fun data count => do
    let src ← orFault .outOfBounds (loadWords t.typeSize count data)
    encode src

/-- `decode` turns the array's old values into its new ones; memory past the
`count` values is left alone. -/
def Decoder.of (t : DataType) (decode : List UInt8 → List (Native t) → Outcome (List (Native t))) :
    Decoder :=
  fun data out count => do
    let dst ← orFault .outOfBounds (loadWords t.typeSize count out)
    let dst ← decode data dst
    return storeWords t.typeSize dst ++ out.drop (t.typeSize * count)

theorem Encoder.of_storeWords (t : DataType) (encode : List (Native t) → Outcome (List UInt8))
    (values : List (Native t)) :
    Encoder.of t encode (storeWords t.typeSize values) values.length = encode values := by
  simp [Encoder.of, loadWords_storeWords_self]

theorem Decoder.of_storeWords (t : DataType)
    (decode : List UInt8 → List (Native t) → Outcome (List (Native t))) (data : List UInt8)
    (out : List (Native t)) :
    Decoder.of t decode data (storeWords t.typeSize out) out.length =
      (decode data out).map (storeWords t.typeSize) := by
  have h := loadWords_storeWords t.typeSize out []
  rw [List.append_nil] at h
  have hdrop : (storeWords t.typeSize out).drop (t.typeSize * out.length) = [] :=
    List.drop_eq_nil_of_le (by simp)
  cases hd : decode data out <;> simp [Decoder.of, h, hd, hdrop, Except.map]

/-- The values are encoded, and decoding the bytes over an array of as many values
restores them, whatever the array held. -/
def RoundTrips {t : DataType} (encode : List (Native t) → Outcome (List UInt8))
    (decode : List UInt8 → List (Native t) → Outcome (List (Native t))) (src : List (Native t)) : Prop :=
  ∃ bytes, encode src = .ok bytes ∧
    ∀ dst : List (Native t), dst.length = src.length → decode bytes dst = .ok src

/-! ### Plain -/

namespace Plain
variable (t : DataType)

def encode (src : List (Native t)) : Outcome (List UInt8) := .ok (storeWords t.typeSize src)

/-- One copy of `count` values out of the buffer. -/
def decode (data : List UInt8) (dst : List (Native t)) : Outcome (List (Native t)) :=
  orFault .outOfBounds (loadWords t.typeSize dst.length data)

theorem decode_encode (src dst : List (Native t)) (h : dst.length = src.length) :
    decode t (storeWords t.typeSize src) dst = .ok src := by
  have hload := loadWords_storeWords t.typeSize src []
  rw [List.append_nil] at hload
  rw [decode, h, hload]
  rfl

end Plain

/-! ### Delta -/

namespace Delta
variable (t : DataType)

/-- The difference of every value from the one before it; subtraction wraps. -/
def differences (prev : Native t) : List (Native t) → List (Native t)
  | [] => []
  | x :: rest => (x - prev) :: differences x rest

def encode : List (Native t) → Outcome (List UInt8)
  | [] => .ok []
  | x :: rest => .ok (storeWords t.typeSize (x :: differences t x rest))

/-- The running sums of the differences; addition wraps. -/
def sums (prev : Native t) : List (Native t) → List (Native t)
  | [] => []
  | d :: rest => (prev + d) :: sums (prev + d) rest

def decode (data : List UInt8) (dst : List (Native t)) : Outcome (List (Native t)) :=
  if dst.length = 0 then .ok dst
  else do
    let src ← orFault .outOfBounds (loadWords t.typeSize dst.length data)
    match src with
    | [] => return []
    | x :: rest => return x :: sums t x rest

theorem length_differences (prev : Native t) (xs : List (Native t)) :
    (differences t prev xs).length = xs.length := by
  induction xs generalizing prev with
  | nil => rfl
  | cons x rest ih => simp [differences, ih]

theorem sums_differences (prev : Native t) (xs : List (Native t)) :
    sums t prev (differences t prev xs) = xs := by
  induction xs generalizing prev with
  | nil => rfl
  | cons x rest ih =>
    have hx : prev + (x - prev) = x := by
      rw [BitVec.add_comm, BitVec.sub_add_cancel]
    simp only [differences, sums, hx, ih]

/-- One word per value, whatever the values. -/
theorem encode_length {src : List (Native t)} {bytes : List UInt8} (h : encode t src = .ok bytes) :
    bytes.length = t.typeSize * src.length := by
  cases src with
  | nil =>
    cases h
    simp
  | cons x rest =>
    cases h
    simp only [length_storeWords, List.length_cons, length_differences]

theorem decode_encode {src dst : List (Native t)} {bytes : List UInt8}
    (h : encode t src = .ok bytes) (hdst : dst.length = src.length) :
    decode t bytes dst = .ok src := by
  cases src with
  | nil =>
    cases List.length_eq_zero_iff.mp hdst
    rfl
  | cons x rest =>
    cases h
    have hlen : dst.length = (x :: differences t x rest).length := by
      rw [hdst, List.length_cons, List.length_cons, length_differences]
    have hload := loadWords_storeWords t.typeSize (x :: differences t x rest) []
    rw [List.append_nil, ← hlen] at hload
    rw [decode, if_neg (by rw [hdst]; simp), hload]
    simp [sums_differences]

theorem exists_encode_ok (src : List (Native t)) : ∃ bytes, encode t src = .ok bytes := by
  cases src with
  | nil => exact ⟨_, rfl⟩
  | cons x rest => exact ⟨_, rfl⟩

/-- **The differences of any values, however they wrap, restore them, one word per value.** -/
theorem delta_roundTrips (src : List (Native t)) :
    RoundTrips (encode t) (decode t) src ∧
      ∀ bytes, encode t src = .ok bytes → bytes.length = t.typeSize * src.length := by
  obtain ⟨bytes, h⟩ := exists_encode_ok t src
  exact ⟨⟨bytes, h, fun dst hdst => decode_encode t h hdst⟩, fun bytes h => encode_length t h⟩

end Delta

end ColumnarStore.Encoding
