import ColumnarStore.BloomFilter
import ColumnarStore.ZoneMap

/-! The segment file and its reader.

A file is a header and a body. The header is kept as the record it is read into; what
the fields of a column say is where in the file its bytes, its zone map and its filter
lie. Positions are file positions, so the body begins at the size of the header. A
segment and its reader hold the same header, and a column that was read once reads
the same again, so neither the second copy nor the caches appear. -/
namespace ColumnarStore
open Foundation Encoding

/-! ### Statistics -/

structure ColumnStats where
  type : DataType := .int32
  nullCount : Nat := 0
  distinctCount : Nat := 0
  totalCount : Nat := 0
  minInt : Int64Bits := 0
  maxInt : Int64Bits := 0
  minFp : BitVec 64 := 0
  maxFp : BitVec 64 := 0
  hasMinMax : Bool := false
  deriving DecidableEq, Repr

/-- The copy constructor: bounds are copied for the kind of the type only. -/
def ColumnStats.copy (s : ColumnStats) : ColumnStats :=
  let base : ColumnStats :=
    { type := s.type, nullCount := s.nullCount, distinctCount := s.distinctCount
      totalCount := s.totalCount, hasMinMax := s.hasMinMax }
  if s.hasMinMax && s.type.isInteger then {base with minInt := s.minInt, maxInt := s.maxInt}
  else if s.hasMinMax && s.type.isFloatingPoint then {base with minFp := s.minFp, maxFp := s.maxFp}
  else base

/-! ### The header -/

structure ColumnMeta where
  offset : Nat
  size : Nat
  size_lt : size < 2 ^ 32
  type : DataType
  encoding : EncodingType
  stats : ColumnStats
  zoneMapOffset : Nat
  zoneMapSize : Nat
  bloomOffset : Nat
  bloomSize : Nat
  deriving DecidableEq, Repr

structure SegmentHeader where
  magic : Nat := 0x434F4C53
  version : Nat := 1
  numColumns : Nat := 0
  numRows : Nat := 0
  createdTs : Nat := 0
  checksum : Nat := 0
  columns : List ColumnMeta := []
  deriving DecidableEq, Repr

def kFixedHeaderSize : Nat := 4 * 3 + 8 * 3

/-- `sizeof(SegmentHeader::ColumnMeta)`. -/
def kColumnMetaSize : Nat := 136

def headerSize (numColumns : Nat) : Nat := kFixedHeaderSize + numColumns * kColumnMetaSize

/-! ### Segments -/

structure Segment where
  header : SegmentHeader
  body : List UInt8
  deriving DecidableEq

namespace Segment

def numRows (s : Segment) : Nat := s.header.numRows

def numColumns (s : Segment) : Nat := s.header.numColumns

/-- `header_.columns[idx]`. -/
def columnMeta (s : Segment) (idx : Nat) : Outcome ColumnMeta :=
  orFault .outOfBounds s.header.columns[idx]?

def columnType (s : Segment) (idx : Nat) : Outcome DataType := do return (← s.columnMeta idx).type

def columnEncoding (s : Segment) (idx : Nat) : Outcome EncodingType := do return (← s.columnMeta idx).encoding

/-- `seekg` and `read`. -/
def readBytes (s : Segment) (offset size : Nat) : Outcome (List UInt8) :=
  let start := headerSize s.numColumns
  if size = 0 then .ok []
  else if start ≤ offset ∧ offset + size ≤ start + s.body.length then
    .ok ((s.body.drop (offset - start)).take size)
  else .error .unreadable

def getColumn (s : Segment) (idx : Nat) : Outcome Column := do
  let colMeta ← s.columnMeta idx
  let encodedData ← s.readBytes colMeta.offset colMeta.size
  let column ← orFault .nullPointer (Column.create colMeta.type)
  column.decode (createDecoder colMeta.encoding colMeta.type) encodedData

/-- A column without a zone map gets an empty one. -/
def getZoneMap (s : Segment) (idx : Nat) : Outcome ZoneMap := do
  let colMeta ← s.columnMeta idx
  if colMeta.zoneMapSize = 0 then return {}
  else do
    let data ← s.readBytes colMeta.zoneMapOffset colMeta.zoneMapSize
    ZoneMap.read data

/-- A column without a filter gets one that nothing was added to. -/
def getBloomFilter (s : Segment) (idx : Nat) : Outcome BloomFilter := do
  let colMeta ← s.columnMeta idx
  if colMeta.bloomSize = 0 then return .empty
  else do
    let data ← s.readBytes colMeta.bloomOffset colMeta.bloomSize
    BloomFilter.read data

/-- The bytes of `count` values of a column; of other than numeric types, zeros. -/
def getColumnData (s : Segment) (col offset count : Nat) : Outcome (List UInt8) := do
  let type ← s.columnType col
  let column ← s.getColumn col
  if type.isInteger || type.isFloatingPoint then column.readValues offset count
  else return List.replicate (count * type.typeSize) 0

/-- What can be read has the size that was asked for. -/
theorem readBytes_length {s : Segment} {offset size : Nat} {bytes : List UInt8}
    (h : s.readBytes offset size = .ok bytes) : bytes.length = size := by
  simp only [readBytes] at h
  split at h
  · next hzero =>
    cases h
    exact hzero.symm
  · split at h
    · next hin =>
      cases h
      rw [List.length_take, List.length_drop]
      omega
    · cases h

/-- A region that begins `before` bytes into the body. -/
theorem readBytes_region {s : Segment} {before bytes after : List UInt8}
    (h : s.body = before ++ (bytes ++ after)) :
    s.readBytes (headerSize s.numColumns + before.length) bytes.length = .ok bytes := by
  rw [readBytes]
  by_cases hempty : bytes.length = 0
  · rw [if_pos hempty, List.length_eq_zero_iff.mp hempty]
  · have hin : headerSize s.numColumns ≤ headerSize s.numColumns + before.length ∧
        headerSize s.numColumns + before.length + bytes.length ≤
          headerSize s.numColumns + s.body.length := by
      rw [h]
      simp only [List.length_append]
      omega
    rw [if_neg hempty, if_pos hin, Nat.add_sub_cancel_left, h, List.drop_left' rfl, List.take_left' rfl]

end Segment

end ColumnarStore
