import ColumnarStore.Encoding.Factory

/-! Columns in memory.

A `ColumnVector` keeps its values, a null byte for each and its size. Decoding takes
the number of values from the number of encoded bytes, whatever the encoding, and
leaves every null byte clear: an encoded column carries no nulls. -/
namespace ColumnarStore
open Foundation Encoding

/-- `std::vector::resize`: cut, or filled up with `fill`. -/
def resized {α : Type} (xs : List α) (n : Nat) (fill : α) : List α :=
  xs.take n ++ List.replicate (n - xs.length) fill

structure ColumnVector (t : DataType) where
  data : List (Native t) := []
  nulls : List UInt8 := []
  size : Nat := 0
  deriving DecidableEq, Repr

namespace ColumnVector
variable {t : DataType}

def ofCapacity (t : DataType) (capacity : Nat) : ColumnVector t :=
  {data := List.replicate capacity 0, nulls := List.replicate capacity 0}

def resize (v : ColumnVector t) (size : Nat) : ColumnVector t :=
  {data := resized v.data size 0, nulls := resized v.nulls size 0, size}

end ColumnVector

/-- A `TypedColumn` behind its `ColumnBase`. -/
structure Column where
  type : DataType
  vec : ColumnVector type
  deriving DecidableEq

namespace Column

/-- `ColumnFactory::Create`, which has no boolean column. -/
def create (type : DataType) (capacity : Nat := 0) : Option Column :=
  if type = .boolean then none else some ⟨type, .ofCapacity type capacity⟩

def decode (c : Column) (decoder : Decoder) (data : List UInt8) : Outcome Column := do
  let count := data.length / c.type.typeSize
  let vec := c.vec.resize count
  let memory ← decoder data (storeWords c.type.typeSize vec.data) count
  let values ← orFault .outOfBounds (loadWords c.type.typeSize count memory)
  return ⟨c.type, {vec with data := values}⟩

/-- The bytes of `count` values from `offset` on. -/
def readValues (c : Column) (offset count : Nat) : Outcome (List UInt8) :=
  if offset + count ≤ c.vec.data.length then
    .ok (storeWords c.type.typeSize ((c.vec.data.drop offset).take count))
  else .error .outOfBounds

/-- The column of given values without nulls. -/
def ofValues (t : DataType) (values : List (Native t)) : Column :=
  ⟨t, {data := values, nulls := List.replicate values.length 0, size := values.length}⟩

/-- What decoding makes of a fresh column of an integer type. -/
theorem decode_fresh {t : DataType} (ht : t.isInteger = true) {enc : EncodingType}
    (henc : hasIntegerCodec enc = true) (data : List UInt8) :
    decode ⟨t, .ofCapacity t 0⟩ (createDecoder enc t) data =
      (decodeValues t enc data (List.replicate (data.length / t.typeSize) 0)).map (ofValues t) := by
  have hresize : (ColumnVector.ofCapacity t 0).resize (data.length / t.typeSize) =
      {data := List.replicate (data.length / t.typeSize) 0,
       nulls := List.replicate (data.length / t.typeSize) 0,
       size := data.length / t.typeSize} := by
    simp [ColumnVector.resize, ColumnVector.ofCapacity, resized]
  have hdecode := Decoder.of_storeWords t (decodeValues t enc) data
    (List.replicate (data.length / t.typeSize) 0)
  rw [List.length_replicate] at hdecode
  rw [decode, createDecoder_integer ht henc]
  simp only [hresize, hdecode]
  cases hvalues : decodeValues t enc data (List.replicate (data.length / t.typeSize) 0) with
  | error e => rfl
  | ok values =>
    have hlen : values.length = data.length / t.typeSize := by
      rw [length_decodeValues hvalues, List.length_replicate]
    have hload := loadWords_storeWords_self t.typeSize values
    rw [hlen] at hload
    simp only [Except.map, bind_ok, hload, orFault_some, pure_eq_ok, ofValues, hlen]

end Column

end ColumnarStore
