import ColumnarStore.Scanner.VectorFilter
import ColumnarStore.Segment.Intact

/-! Scanning a segment.

A scan goes through the rows block by block. A block is skipped when the zone map or
the filter of the first leaf's column says so. In the others the rows that satisfy the
predicate are found, by one pass of a kernel when the predicate is a single comparison
and by the interpreter otherwise, and delivered in runs of consecutive rows. -/
namespace ColumnarStore.Scanner
open Foundation Blocks Predicates

/-- The most rows delivered at once. -/
def kMaxRun : Nat := 4096

structure ScanContext where
  blockSize : Nat := kScanBlockSize
  enableZoneMapPruning : Bool := true
  enableBloomFilter : Bool := true

structure ScanStats where
  blocksScanned : Nat := 0
  blocksPrunedZoneMap : Nat := 0
  blocksPrunedBloom : Nat := 0
  rowsScanned : Nat := 0
  rowsFiltered : Nat := 0
  rowsReturned : Nat := 0
  deriving DecidableEq, Repr

/-- One call of the output function: for every column the bytes of `count` values. -/
structure Batch where
  columns : List (List UInt8)
  count : Nat
  deriving DecidableEq, Repr

/-- `WidenValue` of the first value in memory. -/
def widenValue (data : List UInt8) (type : DataType) : Outcome Int64Bits :=
  match type with
  | .int32 | .int64 | .float | .double => do
    let x ← orFault .outOfBounds (loadWord type.typeSize data)
    return Native.toInt64 type x
  | _ => .ok 0

/-! ### One column -/

structure ColumnScanner where
  columnIndex : Nat
  zoneMap : ZoneMap
  bloomFilter : BloomFilter

namespace ColumnScanner

def bloomFilterCheckInt64 (cs : ColumnScanner) (value : Int64Bits) : Outcome Bool :=
  cs.bloomFilter.mightContain (BloomFilter.key (t := .int64) value)

/-- The kernels by predicate; those without a kernel of their own negate another. -/
def filterBlock (build : Build) (t : DataType) (data : List (Native t)) (value : Native t)
    (pred : PredicateType) (mask : BlockFilter) : Outcome BlockFilter :=
  match pred with
  | .equal => mask.storeAll (VectorFilter.equal build t data value)
  | .notEqual => do
    let mask ← mask.storeAll (VectorFilter.equal build t data value)
    mask.negate data.length
  | .lessThan => mask.storeAll (VectorFilter.lessThan build t data value)
  | .lessEqual => mask.storeAll (VectorFilter.lessEqual build t data value)
  | .greaterThan => do
    let mask ← mask.storeAll (VectorFilter.lessEqual build t data value)
    mask.negate data.length
  | .greaterEqual => do
    let mask ← mask.storeAll (VectorFilter.lessThan build t data value)
    mask.negate data.length
  | _ => .ok (.setAll true)

/-- The block's values against the low bytes of the constant. -/
def filterBytes (build : Build) (t : DataType) (count : Nat) (bytes : List UInt8)
    (filterValue : Int64Bits) (pred : PredicateType) (mask : BlockFilter) : Outcome BlockFilter := do
  let data ← orFault .outOfBounds (loadWords t.typeSize count bytes)
  filterBlock build t data (filterValue.setWidth _) pred mask

def scanBlock (build : Build) (cs : ColumnScanner) (seg : Segment) (offset count : Nat)
    (filterValue : Int64Bits) (pred : PredicateType) (mask : BlockFilter) : Outcome BlockFilter :=
  if count = 0 then .ok mask
  else do
    let type ← seg.columnType cs.columnIndex
    if pred = .isNull then return .setAll false
    else if pred = .isNotNull then return .setAll true
    else do
      let bytes ← seg.getColumnData cs.columnIndex offset count
      match type with
      | .int32 => filterBytes build .int32 count bytes filterValue pred mask
      | .int64 => filterBytes build .int64 count bytes filterValue pred mask
      | _ => return .setAll true

end ColumnScanner

/-! ### A segment -/

structure SegmentScanner where
  segment : Segment
  columnScanners : List ColumnScanner
  context : ScanContext
  stats : ScanStats := {}

namespace SegmentScanner

def new (seg : Segment) (context : ScanContext) : Outcome SegmentScanner := do
  let columnScanners ← (List.range seg.numColumns).mapM fun i => do
    let zoneMap ← seg.getZoneMap i
    let bloomFilter ← seg.getBloomFilter i
    return (⟨i, zoneMap, bloomFilter⟩ : ColumnScanner)
  return {segment := seg, columnScanners, context}

/-- The zone map check: the first leaf's constant, cut to its column's type. -/
def zoneMapAllows (sc : SegmentScanner) (predicate : Predicate) (block : Nat) : Outcome Bool :=
  match sc.context.enableZoneMapPruning, predicate.columnPredicates, predicate.program.constants with
  | true, pred :: _, constant :: _ => do
    let col ← orFault .outOfBounds predicate.program.columnIndices[0]?
    let type ← sc.segment.columnType col
    match type with
    | .int32 => do
      let cs ← orFault .outOfBounds sc.columnScanners[col]?
      return cs.zoneMap.shouldScanBlock block .int32 pred (constant.setWidth 32)
    | .int64 => do
      let cs ← orFault .outOfBounds sc.columnScanners[col]?
      return cs.zoneMap.shouldScanBlock block .int64 pred constant
    | _ => return true
  | _, _, _ => .ok true

/-- The filter check, for a first leaf that is an equality. -/
def bloomFilterAllows (sc : SegmentScanner) (predicate : Predicate) : Outcome Bool :=
  match sc.context.enableBloomFilter, predicate.columnPredicates, predicate.program.constants with
  | true, pred :: _, constant :: _ => do
    let col ← orFault .outOfBounds predicate.program.columnIndices[0]?
    match sc.columnScanners[col]? with
    | none => return true
    | some cs => if pred = .equal then cs.bloomFilterCheckInt64 constant else return true
  | _, _, _ => .ok true

/-- One row through the interpreter, each column's value read into eight bytes. -/
def evaluate (sc : SegmentScanner) (predicate : Predicate) (columns : List Column) (blockOffset : Nat)
    (interp : EvalState) (i : Nat) : Outcome (Bool × EvalState) := do
  let rowValues ← columns.zipIdx.mapM fun (col, c) => do
    let raw ← col.readValues (blockOffset + i) 1
    let type ← sc.segment.columnType c
    if 8 < raw.length then .error .outOfBounds else widenValue raw type
  evaluateRow predicate.program interp (rowValues.map fun x => [x]) 0

/-- The rows of a block that satisfy the predicate, counted from the block's first. -/
def matchRows (build : Build) (sc : SegmentScanner) (predicate : Predicate) (columns : List Column)
    (interp : EvalState) (blockOffset blockCount : Nat) : Outcome (EvalState × List Nat) :=
  match predicate.columnPredicates, predicate.program.columnIndices, predicate.program.constants with
  | [pred], [col], [constant] => do
    let cs ← orFault .outOfBounds sc.columnScanners[col]?
    let mask ← cs.scanBlock build sc.segment blockOffset blockCount constant pred .reset
    let rows ← mask.survivors blockCount
    return (interp, rows)
  | _, _, _ => do
    let rows ← BlockFilter.reset.survivors blockCount
    compact (sc.evaluate predicate columns blockOffset) .outOfBounds interp rows

/-- A run as it is delivered. -/
def readRun (columns : List Column) (blockOffset : Nat) (run : Nat × Nat) : Outcome Batch := do
  let bytes ← columns.mapM fun col => col.readValues (blockOffset + run.1) run.2
  return ⟨bytes, run.2⟩

/-- What a scan has come to: its counters, its interpreter and what it delivered. -/
structure Progress where
  stats : ScanStats
  interp : EvalState := {}
  batches : List Batch := []

/-- A block that is not skipped. -/
def deliverBlock (build : Build) (sc : SegmentScanner) (predicate : Predicate) (columns : List Column)
    (p : Progress) (blockOffset blockCount : Nat) : Outcome Progress := do
  let (interp, rows) ← sc.matchRows build predicate columns p.interp blockOffset blockCount
  let batches ← (runs kMaxRun rows).mapM (readRun columns blockOffset)
  let delivered := (batches.map Batch.count).sum
  let stats := {p.stats with
    rowsFiltered := p.stats.rowsFiltered + (blockCount - delivered)
    rowsReturned := p.stats.rowsReturned + delivered}
  return ⟨stats, interp, p.batches ++ batches⟩

def scanBlock (build : Build) (sc : SegmentScanner) (predicate : Predicate) (columns : List Column)
    (p : Progress) (block : Nat) : Outcome Progress := do
  let blockOffset := block * sc.context.blockSize
  let blockCount := min sc.context.blockSize (sc.segment.numRows - blockOffset)
  let stats := {p.stats with
    blocksScanned := p.stats.blocksScanned + 1, rowsScanned := p.stats.rowsScanned + blockCount}
  let shouldScan ← sc.zoneMapAllows predicate block
  if !shouldScan then
    return {p with stats := {stats with blocksPrunedZoneMap := stats.blocksPrunedZoneMap + 1}}
  else do
    let mightMatch ← sc.bloomFilterAllows predicate
    if !mightMatch then
      return {p with stats := {stats with blocksPrunedBloom := stats.blocksPrunedBloom + 1}}
    else sc.deliverBlock build predicate columns {p with stats} blockOffset blockCount

/-- The scanner after the scan, and every call of the output function in order. -/
def scan (build : Build) (sc : SegmentScanner) (predicate : Predicate) :
    Outcome (SegmentScanner × List Batch) :=
  if sc.context.blockSize = 0 then .error .divisionByZero
  else do
    let numBlocks := ZoneMap.blocksFor sc.context.blockSize sc.segment.numRows
    let columns ← (List.range sc.segment.numColumns).mapM sc.segment.getColumn
    let p ← (List.range numBlocks).foldlM (sc.scanBlock build predicate columns) {stats := sc.stats}
    return ({sc with stats := p.stats}, p.batches)

end SegmentScanner

/-- A scan with a scanner of its own. -/
def scanSegment (build : Build) (seg : Segment) (context : ScanContext) (predicate : Predicate) :
    Outcome (ScanStats × List Batch) := do
  let sc ← SegmentScanner.new seg context
  let (sc, batches) ← sc.scan build predicate
  return (sc.stats, batches)

end ColumnarStore.Scanner
