import ColumnarStore.Segment.Format

/-! The segment writer.

Columns are encoded as they are added; zone maps and filters are kept in arrays that
grow to the highest column given one, filled up with default-constructed ones. `finish`
lays the file out column by column: encoded values, zone map, filter. The fields that
point into the file have 32 bits. -/
namespace ColumnarStore
open Foundation Encoding

/-! ### Statistics -/

/-- `std::unordered_set(values).size()`: a value is new unless it equals an earlier one. -/
def distinctValues (t : DataType) (values : List (Native t)) : List (Native t) :=
  values.foldl (fun seen x => if seen.any fun y => Native.eq t y x then seen else seen ++ [x]) []

/-- The loop over the values after the first and their null flags. -/
def validBounds (t : DataType) (lo hi : Native t) :
    List (Native t) → List Bool → Outcome (Native t × Native t)
  | [], _ => .ok (lo, hi)
  | _ :: _, [] => .error .outOfBounds
  | x :: values, isNull :: nulls =>
    if isNull then validBounds t lo hi values nulls
    else validBounds t (Native.min t lo x) (Native.max t hi x) values nulls

/-- The first value counts whether it is null or not. -/
def columnStats (t : DataType) (values : List (Native t)) (nulls : List Bool) : Outcome ColumnStats :=
  let stats : ColumnStats :=
    { type := t, totalCount := values.length, nullCount := nulls.count true
      distinctCount := (distinctValues t values).length }
  match values with
  | [] => .ok stats
  | x :: rest => do
    let (lo, hi) ← validBounds t x x rest nulls.tail
    return {stats with hasMinMax := true, minInt := lo.toInt64 t, maxInt := hi.toInt64 t}

/-! ### The writer -/

/-- What the writer's three arrays hold at one index. -/
structure WriterColumn where
  stats : ColumnStats
  encoding : EncodingType
  buffer : List UInt8

structure SegmentWriter where
  columns : List WriterColumn := []
  zoneMaps : List ZoneMap := []
  bloomFilters : List BloomFilter := []
  rowCount : Nat := 0
  timestamp : Nat := 0
  createdTs : Nat := 0

namespace SegmentWriter

def setTimestamp (w : SegmentWriter) (ts : Nat) : SegmentWriter := {w with timestamp := ts}

def addColumn (w : SegmentWriter) (t : DataType) (values : List (Native t)) (nulls : List Bool)
    (encoding : EncodingType := .plain) : Outcome SegmentWriter := do
  let buffer ← createEncoder encoding t (storeWords t.typeSize values) values.length
  let stats ← columnStats t values nulls
  return {w with
    columns := w.columns ++ [⟨stats.copy, encoding, buffer⟩]
    rowCount := max w.rowCount values.length}

def addZoneMap (w : SegmentWriter) (colIdx : Nat) (zm : ZoneMap) : SegmentWriter :=
  let zoneMaps := if w.zoneMaps.length ≤ colIdx then resized w.zoneMaps (colIdx + 1) {} else w.zoneMaps
  {w with zoneMaps := zoneMaps.set colIdx zm}

def addBloomFilter (w : SegmentWriter) (colIdx : Nat) (bf : BloomFilter) : SegmentWriter :=
  let bloomFilters :=
    if w.bloomFilters.length ≤ colIdx then resized w.bloomFilters (colIdx + 1) .empty
    else w.bloomFilters
  {w with bloomFilters := bloomFilters.set colIdx bf}

/-! ### Finishing -/

/-- What `finish` writes as the zone map of column `i`: nothing without blocks. -/
def zoneMapBytes (w : SegmentWriter) (i : Nat) : List UInt8 :=
  match w.zoneMaps[i]? with
  | none => []
  | some zm => if 0 < zm.numBlocks then zm.write else []

def bloomBytes (w : SegmentWriter) (i : Nat) : List UInt8 :=
  match w.bloomFilters[i]? with
  | none => []
  | some bf => if 0 < bf.size then bf.write else []

/-- `static_cast<uint32_t>`. -/
def toUInt32 (n : Nat) : Nat := n % 2 ^ 32

/-- The entry of a column written from file position `position` on. -/
def columnMeta (w : SegmentWriter) (i : Nat) (c : WriterColumn) (position : Nat) : ColumnMeta :=
  let size := toUInt32 c.buffer.length
  let zoneMap := w.zoneMapBytes i
  let bloom := w.bloomBytes i
  let zoneMapAt := position + size
  let bloomAt := zoneMapAt + zoneMap.length
  { offset := toUInt32 position, size, size_lt := Nat.mod_lt _ (by decide)
    type := c.stats.type, encoding := c.encoding, stats := c.stats.copy
    zoneMapOffset := if zoneMap = [] then 0 else toUInt32 zoneMapAt
    zoneMapSize := toUInt32 zoneMap.length
    bloomOffset := if bloom = [] then 0 else toUInt32 bloomAt
    bloomSize := toUInt32 bloom.length }

/-- The bytes of a column in the file: of its buffer no more than its entry says. -/
def columnBytes (w : SegmentWriter) (i : Nat) (c : WriterColumn) : List UInt8 :=
  c.buffer.take (toUInt32 c.buffer.length) ++ w.zoneMapBytes i ++ w.bloomBytes i

/-- The loop over the columns from the `i`-th on, behind what the body holds so far. -/
def finishColumns (w : SegmentWriter) (start : Nat) :
    Nat → List WriterColumn → List UInt8 → List ColumnMeta × List UInt8
  | _, [], body => ([], body)
  | i, c :: rest, body =>
    let (metas, written) := finishColumns w start (i + 1) rest (body ++ w.columnBytes i c)
    (w.columnMeta i c (start + body.length) :: metas, written)

def finish (w : SegmentWriter) : Segment :=
  let numColumns := w.columns.length
  let (columns, body) := w.finishColumns (headerSize numColumns) 0 w.columns []
  { header := {numColumns, numRows := w.rowCount, createdTs := w.createdTs, columns}, body }

end SegmentWriter

/-! ### Calls -/

/-- A call on a writer before `Finish`. -/
inductive WriterCall where
  | setTimestamp (ts : Nat)
  | addColumn (t : DataType) (values : List (Native t)) (nulls : List Bool) (encoding : EncodingType)
  | addZoneMap (colIdx : Nat) (zm : ZoneMap)
  | addBloomFilter (colIdx : Nat) (bf : BloomFilter)

def WriterCall.apply (w : SegmentWriter) : WriterCall → Outcome SegmentWriter
  | setTimestamp ts => .ok (w.setTimestamp ts)
  | addColumn t values nulls encoding => w.addColumn t values nulls encoding
  | addZoneMap colIdx zm => .ok (w.addZoneMap colIdx zm)
  | addBloomFilter colIdx bf => .ok (w.addBloomFilter colIdx bf)

def SegmentWriter.run (w : SegmentWriter) (calls : List WriterCall) : Outcome SegmentWriter :=
  calls.foldlM WriterCall.apply w

/-- The segment a sequence of calls on a new writer produces. -/
def writeSegment (calls : List WriterCall) : Outcome Segment := do
  let w ← SegmentWriter.run {} calls
  return w.finish

end ColumnarStore
