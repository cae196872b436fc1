import ColumnarStore.Foundation.Stream
import ColumnarStore.Segment.Written

/-! The bytes of a segment file.

`Finish` keeps the room of the header free, writes the columns behind it and goes back to
fill the header in; `ReadHeader` reads the fields one after the other. The records of the
columns are copied as they lie in memory, which is up to the compiler: a `MetaLayout`
reads back what it stored. Opening the finished file gives the segment that `finish`
returns (`open_finishFile`). -/
namespace ColumnarStore
open Foundation Encoding

/-! ### Records -/

/-- The counts fit their 64 bits. -/
def ColumnStats.Storable (s : ColumnStats) : Prop :=
  s.nullCount < 2 ^ 64 ∧ s.distinctCount < 2 ^ 64 ∧ s.totalCount < 2 ^ 64

/-- Every field fits the bits it has. -/
structure ColumnMeta.Storable (m : ColumnMeta) : Prop where
  offset : m.offset < 2 ^ 32
  stats : m.stats.Storable
  zoneMapOffset : m.zoneMapOffset < 2 ^ 32
  zoneMapSize : m.zoneMapSize < 2 ^ 32
  bloomOffset : m.bloomOffset < 2 ^ 32
  bloomSize : m.bloomSize < 2 ^ 32

/-- How a `ColumnMeta` lies in memory. -/
structure MetaLayout where
  store : ColumnMeta → List UInt8
  load : List UInt8 → Option ColumnMeta
  length_store : ∀ m, (store m).length = kColumnMetaSize
  load_store : ∀ m, m.Storable → load (store m) = some m

namespace MetaLayout
variable (layout : MetaLayout)

/-- `header_.columns`, read in one go. -/
def loadColumns : Nat → List UInt8 → Option (List ColumnMeta)
  | 0, _ => some []
  | n + 1, memory =>
    if memory.length < kColumnMetaSize then none
    else do
      let m ← layout.load (memory.take kColumnMetaSize)
      let rest ← loadColumns n (memory.drop kColumnMetaSize)
      return m :: rest

theorem loadColumns_store {columns : List ColumnMeta} (h : ∀ m ∈ columns, m.Storable) (rest : List UInt8) :
    layout.loadColumns columns.length (columns.flatMap layout.store ++ rest) = some columns := by
  induction columns with
  | nil => rfl
  | cons m tail ih =>
    have htail := ih fun m' hm' => h m' (List.mem_cons_of_mem _ hm')
    have hlen := layout.length_store m
    rw [List.flatMap_cons, List.length_cons, loadColumns, List.append_assoc, List.take_left' hlen,
      List.drop_left' hlen, if_neg (by rw [List.length_append, hlen]; omega),
      layout.load_store m (h m List.mem_cons_self), htail]
    rfl

end MetaLayout

/-! ### Records in memory -/

namespace DataType

def code : DataType → Nat
  | boolean => 0
  | int32 => 1
  | int64 => 2
  | float => 3
  | double => 4
  | varchar => 5

def ofCode? : Nat → Option DataType
  | 0 => some boolean
  | 1 => some int32
  | 2 => some int64
  | 3 => some float
  | 4 => some double
  | 5 => some varchar
  | _ => none

theorem ofCode?_code (t : DataType) : ofCode? (t.code % 256) = some t := by cases t <;> rfl

end DataType

namespace EncodingType

def code : EncodingType → Nat
  | plain => 0
  | dictionary => 1
  | rle => 2
  | bitPack => 3
  | frameOfReference => 4
  | zstd => 5
  | lz4 => 6
  | delta => 7

def ofCode? : Nat → Option EncodingType
  | 0 => some plain
  | 1 => some dictionary
  | 2 => some rle
  | 3 => some bitPack
  | 4 => some frameOfReference
  | 5 => some zstd
  | 6 => some lz4
  | 7 => some delta
  | _ => none

theorem ofCode?_code (e : EncodingType) : ofCode? (e.code % 256) = some e := by cases e <;> rfl

end EncodingType

/-- A number of `n` bytes under a cursor, and what is behind it. -/
def nextNumber (n : Nat) (memory : List UInt8) : Nat × List UInt8 := (leValue (memory.take n), memory.drop n)

@[simp] theorem nextNumber_leBytes (n x : Nat) (rest : List UInt8) :
    nextNumber n (leBytes n x ++ rest) = (x % 256 ^ n, rest) := by
  rw [nextNumber, List.take_left' (length_leBytes n x), List.drop_left' (length_leBytes n x), leValue_leBytes]

namespace ColumnStats

/-- 104 bytes, of which the two views of strings and the padding are left zero. -/
def store (s : ColumnStats) : List UInt8 :=
  leBytes 1 s.type.code ++ (leBytes 7 0 ++ (leBytes 8 s.nullCount ++ (leBytes 8 s.distinctCount ++
    (leBytes 8 s.totalCount ++ (leBytes 8 s.minInt.toNat ++ (leBytes 8 s.maxInt.toNat ++
      (leBytes 8 s.minFp.toNat ++ (leBytes 8 s.maxFp.toNat ++ (leBytes 32 0 ++
        (leBytes 1 s.hasMinMax.toNat ++ leBytes 7 0))))))))))

def load (memory : List UInt8) : Option (ColumnStats × List UInt8) :=
  let (type, ptr) := nextNumber 1 memory
  let (_, ptr) := nextNumber 7 ptr
  let (nullCount, ptr) := nextNumber 8 ptr
  let (distinctCount, ptr) := nextNumber 8 ptr
  let (totalCount, ptr) := nextNumber 8 ptr
  let (minInt, ptr) := nextNumber 8 ptr
  let (maxInt, ptr) := nextNumber 8 ptr
  let (minFp, ptr) := nextNumber 8 ptr
  let (maxFp, ptr) := nextNumber 8 ptr
  let (_, ptr) := nextNumber 32 ptr
  let (hasMinMax, ptr) := nextNumber 1 ptr
  let (_, ptr) := nextNumber 7 ptr
  (DataType.ofCode? type).map fun type =>
    ({ type, nullCount, distinctCount, totalCount, minInt := BitVec.ofNat 64 minInt
       maxInt := BitVec.ofNat 64 maxInt, minFp := BitVec.ofNat 64 minFp, maxFp := BitVec.ofNat 64 maxFp
       hasMinMax := hasMinMax != 0 }, ptr)

theorem load_store {s : ColumnStats} (h : s.Storable) (rest : List UInt8) :
    load (s.store ++ rest) = some (s, rest) := by
  obtain ⟨hnull, hdistinct, htotal⟩ := h
  have hflag : (s.hasMinMax.toNat % 256 != 0) = s.hasMinMax := by cases s.hasMinMax <;> rfl
  have hword : ∀ x : BitVec 64, BitVec.ofNat 64 (x.toNat % 256 ^ 8) = x := by
    intro x
    rw [Nat.mod_eq_of_lt (by have := x.isLt; omega)]
    simp
  simp only [load, store, List.append_assoc, nextNumber_leBytes, pow_one, DataType.ofCode?_code, Option.map_some,
    hword, hflag, Nat.mod_eq_of_lt (show s.nullCount < 256 ^ 8 by omega),
    Nat.mod_eq_of_lt (show s.distinctCount < 256 ^ 8 by omega),
    Nat.mod_eq_of_lt (show s.totalCount < 256 ^ 8 by omega)]

@[simp] theorem length_store (s : ColumnStats) : s.store.length = 104 := by simp [store]

end ColumnStats

namespace MetaLayout

/-- The layout with four-byte offsets and eight-byte counts, each where its size puts it. -/
def lp64 : MetaLayout where
  store m :=
    leBytes 4 m.offset ++ (leBytes 4 m.size ++ (leBytes 1 m.type.code ++ (leBytes 1 m.encoding.code ++
      (leBytes 6 0 ++ (m.stats.store ++ (leBytes 4 m.zoneMapOffset ++ (leBytes 4 m.zoneMapSize ++
        (leBytes 4 m.bloomOffset ++ leBytes 4 m.bloomSize))))))))
  load memory := do
    let (offset, ptr) := nextNumber 4 memory
    let (size, ptr) := nextNumber 4 ptr
    let (type, ptr) := nextNumber 1 ptr
    let (encoding, ptr) := nextNumber 1 ptr
    let (_, ptr) := nextNumber 6 ptr
    let type ← DataType.ofCode? type
    let encoding ← EncodingType.ofCode? encoding
    let (stats, ptr) ← ColumnStats.load ptr
    let (zoneMapOffset, ptr) := nextNumber 4 ptr
    let (zoneMapSize, ptr) := nextNumber 4 ptr
    let (bloomOffset, ptr) := nextNumber 4 ptr
    let (bloomSize, _) := nextNumber 4 ptr
    return {
      offset, size := size % 2 ^ 32, size_lt := Nat.mod_lt _ (by decide), type, encoding, stats
      zoneMapOffset, zoneMapSize, bloomOffset, bloomSize }
  length_store m := by simp [kColumnMetaSize]
  load_store m h := by
    obtain ⟨hoffset, hstats, hzone, hzoneSize, hbloom, hbloomSize⟩ := h
    have hlast := nextNumber_leBytes 4 m.bloomSize []
    rw [List.append_nil] at hlast
    have hsize := m.size_lt
    simp only [nextNumber_leBytes, pow_one, DataType.ofCode?_code, EncodingType.ofCode?_code,
      Option.bind_eq_bind, Option.bind_some, ColumnStats.load_store hstats, hlast,
      Nat.mod_eq_of_lt (show m.offset < 256 ^ 4 by omega), Nat.mod_eq_of_lt (show m.size < 256 ^ 4 by omega),
      Nat.mod_eq_of_lt m.size_lt, Nat.mod_eq_of_lt (show m.zoneMapOffset < 256 ^ 4 by omega),
      Nat.mod_eq_of_lt (show m.zoneMapSize < 256 ^ 4 by omega),
      Nat.mod_eq_of_lt (show m.bloomOffset < 256 ^ 4 by omega),
      Nat.mod_eq_of_lt (show m.bloomSize < 256 ^ 4 by omega)]
    rfl

end MetaLayout

/-! ### The header -/

namespace SegmentHeader

/-- The fields before the records, as they are written. -/
def fields (h : SegmentHeader) : List (List UInt8) :=
  [storeWord 4 (BitVec.ofNat 32 h.magic), storeWord 4 (BitVec.ofNat 32 h.version),
    storeWord 4 (BitVec.ofNat 32 h.numColumns), storeWord 8 (BitVec.ofNat 64 h.numRows),
    storeWord 8 (BitVec.ofNat 64 h.createdTs), storeWord 8 (BitVec.ofNat 64 h.checksum)]

/-- What is written at the beginning of the file. -/
def chunks (layout : MetaLayout) (h : SegmentHeader) : List (List UInt8) :=
  h.fields ++ h.columns.map layout.store

structure Storable (h : SegmentHeader) : Prop where
  magic : h.magic < 2 ^ 32
  version : h.version < 2 ^ 32
  numColumns : h.numColumns < 2 ^ 32
  numRows : h.numRows < 2 ^ 64
  createdTs : h.createdTs < 2 ^ 64
  checksum : h.checksum < 2 ^ 64
  columns : ∀ m ∈ h.columns, m.Storable
  /-- There are as many records as the header says. -/
  length_columns : h.columns.length = h.numColumns

theorem length_chunks (layout : MetaLayout) (h : SegmentHeader) :
    (h.chunks layout).flatten.length = headerSize h.columns.length := by
  have hrecords : (h.columns.map layout.store).flatten.length = h.columns.length * kColumnMetaSize := by
    induction h.columns with
    | nil => rfl
    | cons m rest ih =>
      rw [List.map_cons, List.flatten_cons, List.length_append, ih, layout.length_store, List.length_cons,
        Nat.succ_mul, Nat.add_comm]
  rw [chunks, List.flatten_append, List.length_append, hrecords]
  simp [fields, headerSize, kFixedHeaderSize]

end SegmentHeader

/-- `ReadHeader`. -/
def readHeader (layout : MetaLayout) (file : List UInt8) : Outcome SegmentHeader := orFault .unreadable do
  let (magic, ptr) ← nextWord 4 file
  let (version, ptr) ← nextWord 4 ptr
  let (numColumns, ptr) ← nextWord 4 ptr
  let (numRows, ptr) ← nextWord 8 ptr
  let (createdTs, ptr) ← nextWord 8 ptr
  let (checksum, ptr) ← nextWord 8 ptr
  let columns ← layout.loadColumns numColumns.toNat ptr
  return {
    magic := magic.toNat, version := version.toNat, numColumns := numColumns.toNat
    numRows := numRows.toNat, createdTs := createdTs.toNat, checksum := checksum.toNat, columns }

/-- `Segment::Open`. -/
def openSegment (layout : MetaLayout) (file : List UInt8) : Outcome Segment := do
  let header ← readHeader layout file
  return ⟨header, file.drop (headerSize header.numColumns)⟩

/-- A header that was written is read. -/
theorem readHeader_chunks (layout : MetaLayout) {h : SegmentHeader} (hs : h.Storable) (rest : List UInt8) :
    readHeader layout ((h.chunks layout).flatten ++ rest) = .ok h := by
  have hcolumns := layout.loadColumns_store hs.columns rest
  rw [hs.length_columns, List.flatMap_def] at hcolumns
  have hchunks : (h.chunks layout).flatten ++ rest =
      storeWord 4 (BitVec.ofNat 32 h.magic) ++ (storeWord 4 (BitVec.ofNat 32 h.version) ++
        (storeWord 4 (BitVec.ofNat 32 h.numColumns) ++ (storeWord 8 (BitVec.ofNat 64 h.numRows) ++
          (storeWord 8 (BitVec.ofNat 64 h.createdTs) ++ (storeWord 8 (BitVec.ofNat 64 h.checksum) ++
            ((h.columns.map layout.store).flatten ++ rest)))))) := by
    simp [SegmentHeader.chunks, SegmentHeader.fields]
  have hmagic : (BitVec.ofNat (8 * 4) h.magic).toNat = h.magic := toNat_ofNat_of_lt hs.magic
  have hversion : (BitVec.ofNat (8 * 4) h.version).toNat = h.version := toNat_ofNat_of_lt hs.version
  have hnum : (BitVec.ofNat (8 * 4) h.numColumns).toNat = h.numColumns := toNat_ofNat_of_lt hs.numColumns
  have hrows : (BitVec.ofNat (8 * 8) h.numRows).toNat = h.numRows := toNat_ofNat_of_lt hs.numRows
  have hts : (BitVec.ofNat (8 * 8) h.createdTs).toNat = h.createdTs := toNat_ofNat_of_lt hs.createdTs
  have hsum : (BitVec.ofNat (8 * 8) h.checksum).toNat = h.checksum := toNat_ofNat_of_lt hs.checksum
  rw [readHeader, hchunks]
  simp only [nextWord_storeWord, Option.bind_eq_bind, Option.bind_some, hnum, hcolumns, hmagic, hversion,
    hrows, hts, hsum]
  rfl

/-! ### Writing the file -/

namespace SegmentWriter

/-- The loop over the columns from the `i`-th on, `tellp` before a column being its offset.
Neither an absent zone map nor an absent filter is written. -/
def writeColumns (w : SegmentWriter) : Nat → List WriterColumn → OutStream → List ColumnMeta × OutStream
  | _, [], file => ([], file)
  | i, c :: rest, file =>
    let colMeta := w.columnMeta i c file.pos
    let file := file.write (c.buffer.take colMeta.size)
    let file := file.write (w.zoneMapBytes i)
    let file := file.write (w.bloomBytes i)
    let (metas, file) := writeColumns w (i + 1) rest file
    (colMeta :: metas, file)

/-- The file that `Finish` writes. -/
def finishFile (layout : MetaLayout) (w : SegmentWriter) : List UInt8 :=
  let numColumns := w.columns.length
  let file := OutStream.write {} (List.replicate (headerSize numColumns) 0)
  let (columns, file) := w.writeColumns 0 w.columns file
  let header : SegmentHeader := {numColumns, numRows := w.rowCount, createdTs := w.createdTs, columns}
  ((header.chunks layout).foldl OutStream.write (file.seek 0)).bytes

/-- Behind what is there the columns are written as `finish` lays them out. -/
theorem writeColumns_eq (w : SegmentWriter) (free : List UInt8) (i : Nat) (cs : List WriterColumn)
    (body : List UInt8) :
    w.writeColumns i cs ⟨free ++ body, (free ++ body).length⟩ =
      ((w.finishColumns free.length i cs body).1, ⟨free ++ (w.finishColumns free.length i cs body).2,
        (free ++ (w.finishColumns free.length i cs body).2).length⟩) := by
  induction cs generalizing i body with
  | nil => rfl
  | cons c rest ih =>
    have hbytes : free ++ body ++ c.buffer.take (toUInt32 c.buffer.length) ++ w.zoneMapBytes i ++ w.bloomBytes i =
        free ++ (body ++ w.columnBytes i c) := by simp only [columnBytes, List.append_assoc]
    have hrest := ih (i + 1) (body ++ w.columnBytes i c)
    have hpos : (free ++ body).length = free.length + body.length := List.length_append
    rw [writeColumns, finishColumns]
    simp only [OutStream.write_end]
    rw [show (w.columnMeta i c (free ++ body).length).size = toUInt32 c.buffer.length from rfl, hbytes, hrest, hpos]

theorem length_finishColumns (w : SegmentWriter) (start i : Nat) (cs : List WriterColumn) (body : List UInt8) :
    (w.finishColumns start i cs body).1.length = cs.length := by
  induction cs generalizing i body with
  | nil => rfl
  | cons c rest ih => exact congrArg (· + 1) (ih (i + 1) _)

/-- The header fills the room kept free, and the body stands behind it. -/
theorem finishFile_eq (layout : MetaLayout) (w : SegmentWriter) :
    w.finishFile layout = (w.finish.header.chunks layout).flatten ++ w.finish.body := by
  have hplaceholder : OutStream.write {} (List.replicate (headerSize w.columns.length) 0) =
      ⟨List.replicate (headerSize w.columns.length) 0 ++ [],
        (List.replicate (headerSize w.columns.length) (0 : UInt8) ++ []).length⟩ := by
    rw [List.append_nil]
    exact OutStream.write_end [] _
  have hcolumns := w.writeColumns_eq (List.replicate (headerSize w.columns.length) 0) 0 w.columns []
  rw [List.length_replicate] at hcolumns
  have hlen : (w.finish.header.chunks layout).flatten.length =
      (List.replicate (headerSize w.columns.length) (0 : UInt8)).length := by
    rw [SegmentHeader.length_chunks, List.length_replicate]
    exact congrArg headerSize (w.length_finishColumns ..)
  rw [finishFile, hplaceholder, hcolumns]
  exact OutStream.foldl_write_start hlen _ _

/-- Opening the file gives the segment. -/
theorem open_finishFile (layout : MetaLayout) {w : SegmentWriter} (h : w.finish.header.Storable) :
    openSegment layout (w.finishFile layout) = .ok w.finish := by
  have hlen := SegmentHeader.length_chunks layout w.finish.header
  rw [h.length_columns] at hlen
  rw [openSegment, finishFile_eq, readHeader_chunks layout h, bind_ok, List.drop_left' hlen]
  rfl

end SegmentWriter

end ColumnarStore
