import ColumnarStore.Scanner.Unpruned
import ColumnarStore.Segment.Tables

/-! The mask and the size of a block.

The mask of a block has room for `kScanBlockSize` rows, and the size of a block is the
caller's. A block of more rows that is not skipped is filtered past the end of the mask,
by the kernel or else by the loop that collects its rows; nothing else is. -/
namespace ColumnarStore
open Foundation Blocks Predicates Scanner

/-! ### Masks -/

namespace Scanner.BlockFilter

theorem load_ok (f : BlockFilter) {i : Nat} (hi : i < kScanBlockSize) : ∃ b, f.load i = .ok b := by
  rw [load, List.getElem?_eq_getElem (f.sized.symm ▸ hi)]
  exact ⟨_, rfl⟩

theorem load_end (f : BlockFilter) : f.load kScanBlockSize = .error .maskIndex := by
  rw [load, List.getElem?_eq_none f.sized.le]
  rfl

theorem survivors_ok (f : BlockFilter) {count : Nat} (hcount : count ≤ kScanBlockSize) :
    ∃ rows, f.survivors count = .ok rows := by
  refine exists_foldlM_ok (fun i hi rows => ?_) []
  obtain ⟨b, hb⟩ := f.load_ok ((List.mem_range.mp hi).trans_le hcount)
  rw [hb]
  exact ⟨_, rfl⟩

/-- More rows than the mask has are collected past its end. -/
theorem survivors_tall (f : BlockFilter) {count : Nat} (hcount : kScanBlockSize < count) :
    f.survivors count = .error .maskIndex := by
  refine foldlM_range_eq_error hcount (fun i hi rows => ?_) (fun rows => ?_) []
  · obtain ⟨b, hb⟩ := f.load_ok hi
    rw [hb]
    exact .inl ⟨_, rfl⟩
  · rw [f.load_end]
    rfl

/-- Stores one of which is past the end. -/
theorem storeAll_tall {stores : List (Nat × Bool)} {s : Nat × Bool} (hs : s ∈ stores) (hout : kScanBlockSize ≤ s.1)
    (f : BlockFilter) : f.storeAll stores = .error .maskIndex := by
  obtain ⟨before, after, rfl⟩ := List.append_of_mem hs
  have hstore : ∀ g : BlockFilter, g.store s.1 s.2 = .error .maskIndex := fun g => if_neg (not_lt.mpr hout)
  have hbefore : ∀ r ∈ before, ∀ g : BlockFilter,
      (∃ g', g.store r.1 r.2 = .ok g') ∨ g.store r.1 r.2 = .error .maskIndex := by
    intro r _ g
    rw [store]
    split
    · exact .inl ⟨_, rfl⟩
    · exact .inr rfl
  exact foldlM_eq_error hbefore hstore f

end Scanner.BlockFilter

/-! ### Columns -/

/-- Every column can be read and holds a value for each row. -/
def Segment.Full (seg : Segment) : Prop :=
  ∀ c < seg.numColumns, ∃ col, seg.getColumn c = .ok col ∧ col.vec.data.length = seg.numRows

theorem IntactSegment.segment_full (s : IntactSegment) : s.segment.Full := by
  intro c hc
  have hcol := List.getElem?_eq_getElem (s.length_columns.symm ▸ hc)
  exact ⟨_, getColumn hcol, length_data hcol⟩

namespace Scanner.ColumnScanner

theorem filterBlock_tall (build : Build) {t : DataType} (ht : t.isInteger = true) {data : List (Native t)}
    (hdata : kScanBlockSize < data.length) (op : Comparison) (value : Native t) (mask : BlockFilter) :
    filterBlock build t data value op.predicateType mask = .error .maskIndex := by
  have hlast : kScanBlockSize ∈ VectorFilter.storeOrder build t data.length :=
    (VectorFilter.mem_storeOrder ht).mpr hdata
  have hkernel : ∀ compare, mask.storeAll (VectorFilter.kernel build t data compare) = .error .maskIndex :=
    fun compare => BlockFilter.storeAll_tall (List.mem_map_of_mem hlast) le_rfl mask
  cases op with
  | eq | lt => exact hkernel _
  | ne =>
    show (mask.storeAll (VectorFilter.equal build t data value) >>= _) = _
    rw [VectorFilter.equal, hkernel, bind_error]
  | gt =>
    show (mask.storeAll (VectorFilter.lessEqual build t data value) >>= _) = _
    rw [VectorFilter.lessEqual, hkernel, bind_error]

section Block
variable (build : Build) {seg : Segment} {cs : ColumnScanner} {col : Column}
  (hget : seg.getColumn cs.columnIndex = .ok col) {offset count : Nat} (h : offset + count ≤ col.vec.data.length)
include hget h

/-- A column of another type is not filtered. -/
theorem scanBlock_other (hint : col.type.isInteger = false) (hzero : count ≠ 0) (op : Comparison)
    (constant : Int64Bits) (mask : BlockFilter) :
    cs.scanBlock build seg offset count constant op.predicateType mask = .ok (.setAll true) := by
  have hread : ∃ bytes, seg.getColumnData cs.columnIndex offset count = .ok bytes := by
    rw [Segment.getColumnData, (Segment.getColumn_spec hget).1, bind_ok, hget, bind_ok]
    split
    · exact ⟨_, if_pos h⟩
    · exact ⟨_, rfl⟩
  obtain ⟨bytes, hbytes⟩ := hread
  have hnull := op.predicateType_ne_null
  rw [scanBlock, if_neg hzero, (Segment.getColumn_spec hget).1, bind_ok, if_neg hnull.1, if_neg hnull.2, hbytes,
    bind_ok]
  generalize col.type = t at hint
  cases t with
  | int32 | int64 => cases hint
  | _ => rfl

theorem scanBlock_short (hcount : count ≤ kScanBlockSize) (op : Comparison) (constant : Int64Bits)
    (mask : BlockFilter) :
    ∃ mask', cs.scanBlock build seg offset count constant op.predicateType mask = .ok mask' := by
  by_cases hzero : count = 0
  · exact ⟨mask, if_pos hzero⟩
  cases hint : col.type.isInteger with
  | false => exact ⟨_, scanBlock_other build hget h hint hzero op constant mask⟩
  | true =>
    have hlen : ((col.vec.data.drop offset).take count).length ≤ kScanBlockSize :=
      (List.length_take_le _ _).trans hcount
    obtain ⟨mask', hok, -⟩ := filterBlock_ok build hint hlen op (constant.setWidth (8 * col.type.typeSize)) mask
    exact ⟨mask', by rw [scanBlock_integer build hget hint hzero h, hok]⟩

/-- Only the kernels fill the mask up to the size of the block. -/
theorem scanBlock_tall (hcount : kScanBlockSize < count) (op : Comparison) (constant : Int64Bits)
    (mask : BlockFilter) :
    cs.scanBlock build seg offset count constant op.predicateType mask =
      if col.type.isInteger then .error .maskIndex else .ok (.setAll true) := by
  have hzero : count ≠ 0 := by omega
  cases hint : col.type.isInteger with
  | false => exact scanBlock_other build hget h hint hzero op constant mask
  | true =>
    have hlen : kScanBlockSize < ((col.vec.data.drop offset).take count).length := by
      rw [List.length_take, List.length_drop]
      omega
    rw [scanBlock_integer build hget hint hzero h, filterBlock_tall build hint hlen]
    rfl

end Block

end Scanner.ColumnScanner

/-! ### The steps of a scan -/

/-- A read outside an array is another fault than an index outside the mask. -/
theorem avoids_outOfBounds {α : Type} (x : Option α) : Avoids .maskIndex (orFault Fault.outOfBounds x) :=
  avoids_orFault (by decide) x

theorem Segment.columnType_avoids (seg : Segment) (c : Nat) : Avoids .maskIndex (seg.columnType c) :=
  (avoids_outOfBounds _).bind fun _ _ => avoids_ok _ _

theorem Column.readValues_avoids (col : Column) (offset count : Nat) :
    Avoids .maskIndex (col.readValues offset count) := by
  rw [Column.readValues]
  split
  · exact avoids_ok _ _
  · exact avoids_error (by decide)

theorem Scanner.widenValue_avoids (data : List UInt8) (type : DataType) :
    Avoids .maskIndex (widenValue data type) := by
  cases type with
  | boolean | varchar => exact avoids_ok _ _
  | _ => exact (avoids_outOfBounds _).bind fun _ _ => avoids_ok _ _

namespace BloomFilter

theorem mightContain_avoids (bf : BloomFilter) (val : BitVec 64) : Avoids Fault.maskIndex (bf.mightContain val) := by
  have hprobes : Avoids Fault.maskIndex (bf.boundedProbes val) := by
    rw [boundedProbes]
    split
    · exact avoids_error (by decide)
    · split
      · exact avoids_error (by decide)
      · exact avoids_ok _ _
  exact hprobes.bind fun _ _ => avoids_ok _ _

end BloomFilter

namespace Scanner.SegmentScanner
variable (sc : SegmentScanner) (predicate : Predicate)

theorem zoneMapAllows_avoids (block : Nat) : Avoids .maskIndex (sc.zoneMapAllows predicate block) := by
  unfold zoneMapAllows
  split
  · refine (avoids_outOfBounds _).bind fun col _ => (Segment.columnType_avoids _ col).bind fun type _ => ?_
    split
    · exact (avoids_outOfBounds _).bind fun _ _ => avoids_ok _ _
    · exact (avoids_outOfBounds _).bind fun _ _ => avoids_ok _ _
    · exact avoids_ok _ _
  · exact avoids_ok _ _

theorem bloomFilterAllows_avoids : Avoids .maskIndex (sc.bloomFilterAllows predicate) := by
  unfold bloomFilterAllows
  split
  · refine (avoids_outOfBounds _).bind fun col _ => ?_
    split
    · exact avoids_ok _ _
    · split
      · exact BloomFilter.mightContain_avoids _ _
      · exact avoids_ok _ _
  · exact avoids_ok _ _

theorem evaluate_avoids (columns : List Column) (blockOffset : Nat) (interp : EvalState) (i : Nat) :
    Avoids .maskIndex (sc.evaluate predicate columns blockOffset interp i) := by
  refine (avoids_mapM fun entry _ => ?_).bind fun rowValues _ => execute_avoids (by decide) _ _ _ _ _
  refine (Column.readValues_avoids _ _ _).bind fun raw _ => (Segment.columnType_avoids _ _).bind fun type _ => ?_
  split
  · exact avoids_error (by decide)
  · exact widenValue_avoids raw type

theorem readRun_avoids (columns : List Column) (blockOffset : Nat) (run : Nat × Nat) :
    Avoids .maskIndex (readRun columns blockOffset run) :=
  (avoids_mapM fun col _ => col.readValues_avoids _ _).bind fun _ _ => avoids_ok _ _

/-- Delivering rows does not look at the mask again. -/
theorem deliverBlock_avoids {build : Build} {columns : List Column} {p : Progress} {blockOffset blockCount : Nat}
    (h : Avoids .maskIndex (sc.matchRows build predicate columns p.interp blockOffset blockCount)) :
    Avoids .maskIndex (sc.deliverBlock build predicate columns p blockOffset blockCount) :=
  h.bind fun _ _ => (avoids_mapM fun run _ => readRun_avoids columns blockOffset run).bind fun _ _ => avoids_ok _ _

/-- The zone map check faults on all blocks or on none. -/
theorem zoneMapAllows_total {block : Nat} {allowed : Bool} (h : sc.zoneMapAllows predicate block = .ok allowed)
    (block' : Nat) : ∃ allowed', sc.zoneMapAllows predicate block' = .ok allowed' := by
  unfold zoneMapAllows at h ⊢
  split at h
  · obtain ⟨col, hcol, h⟩ := bind_eq_ok.mp h
    obtain ⟨type, htype, h⟩ := bind_eq_ok.mp h
    simp only [hcol, htype, bind_ok]
    cases type with
    | int32 | int64 =>
      obtain ⟨cs, hcs, -⟩ := bind_eq_ok.mp h
      rw [hcs]
      exact ⟨_, rfl⟩
    | _ => exact ⟨_, rfl⟩
  · exact ⟨true, rfl⟩

/-- Neither the zone map nor the filter skips the block. -/
def Allows (block : Nat) : Prop :=
  sc.zoneMapAllows predicate block = .ok true ∧ sc.bloomFilterAllows predicate = .ok true

variable {sc predicate}

/-- A block leaves the mask only where its rows are found. -/
theorem scanBlock_avoids {build : Build} {columns : List Column} {block : Nat}
    (h : sc.Allows predicate block → ∀ interp, Avoids .maskIndex (sc.matchRows build predicate columns interp
      (block * sc.context.blockSize) (min sc.context.blockSize (sc.segment.numRows - block * sc.context.blockSize))))
    (p : Progress) : Avoids .maskIndex (sc.scanBlock build predicate columns p block) := by
  refine (sc.zoneMapAllows_avoids predicate block).bind fun shouldScan hzone => ?_
  cases shouldScan with
  | false => exact avoids_ok _ _
  | true =>
    refine (sc.bloomFilterAllows_avoids predicate).bind fun mightMatch hbloom => ?_
    cases mightMatch with
    | false => exact avoids_ok _ _
    | true => exact deliverBlock_avoids sc predicate (h ⟨hzone, hbloom⟩ _)

theorem scanBlock_skipped {build : Build} {columns : List Column} {block : Nat}
    (hzone : sc.zoneMapAllows predicate block = .ok false) (p : Progress) :
    ∃ p', sc.scanBlock build predicate columns p block = .ok p' := by
  rw [scanBlock]
  simp only [hzone, bind_ok]
  exact ⟨_, rfl⟩

/-- A block that is not skipped ends in the fault of finding its rows. -/
theorem scanBlock_eq_error {build : Build} {columns : List Column} {block : Nat} {e : Fault}
    (hallows : sc.Allows predicate block)
    (h : ∀ interp, sc.matchRows build predicate columns interp (block * sc.context.blockSize)
      (min sc.context.blockSize (sc.segment.numRows - block * sc.context.blockSize)) = .error e) (p : Progress) :
    sc.scanBlock build predicate columns p block = .error e := by
  obtain ⟨hzone, hbloom⟩ := hallows
  rw [scanBlock]
  simp only [hzone, hbloom, bind_ok]
  show deliverBlock .. = _
  rw [deliverBlock, h, bind_error]

/-! ### Rows of a chain -/

section Chain
variable {build : Build} {columns : List Column} {chain : Chain}

theorem matchRows_single (hsingle : chain.tail = []) (interp : EvalState) (offset count : Nat) :
    sc.matchRows build chain.predicate columns interp offset count = (do
      let cs ← orFault .outOfBounds sc.columnScanners[chain.head.column]?
      let mask ← cs.scanBlock build sc.segment offset count chain.head.constant chain.head.op.predicateType .reset
      let rows ← mask.survivors count
      return (interp, rows)) := by
  have htables := tables_chain chain
  have hleaves : chain.leaves = [chain.head] := by rw [Chain.leaves, hsingle, List.map_nil]
  simp only [matchRows, htables.columnPredicates, htables.columnIndices, htables.constants, hleaves, List.map_singleton]

theorem matchRows_many (hmany : chain.tail ≠ []) (interp : EvalState) (offset count : Nat) :
    sc.matchRows build chain.predicate columns interp offset count = (do
      let rows ← BlockFilter.reset.survivors count
      compact (sc.evaluate chain.predicate columns offset) .outOfBounds interp rows) := by
  have htables := tables_chain chain
  unfold matchRows
  split
  · next hpreds _ _ =>
    have hlen := congrArg List.length (htables.columnPredicates.symm.trans hpreds)
    rw [List.length_map, Chain.leaves, List.length_cons, List.length_map, List.length_singleton] at hlen
    exact (hmany (List.length_eq_zero_iff.mp (by omega))).elim
  · rfl

end Chain

/-! ### Scanners of a segment -/

/-- What the constructor makes, and every scan keeps. -/
structure ScannerOf (seg : Segment) (context : ScanContext) (sc : SegmentScanner) : Prop where
  segment : sc.segment = seg
  context : sc.context = context
  length : sc.columnScanners.length = seg.numColumns
  columnIndex : ∀ (i : Nat) (cs : ColumnScanner), sc.columnScanners[i]? = some cs → cs.columnIndex = i

theorem scannerOf_new {seg : Segment} {context : ScanContext} {sc : SegmentScanner}
    (h : SegmentScanner.new seg context = .ok sc) (stats : ScanStats) :
    ScannerOf seg context {sc with stats} := by
  obtain ⟨columnScanners, hcolumns, h⟩ := bind_eq_ok.mp h
  cases h
  obtain ⟨hlen, hall⟩ := mapM_range_eq_ok.mp hcolumns
  refine ⟨rfl, rfl, hlen, fun i cs hcs => ?_⟩
  obtain ⟨zoneMap, -, hrest⟩ := bind_eq_ok.mp (hall i cs hcs)
  obtain ⟨bloomFilter, -, hmade⟩ := bind_eq_ok.mp hrest
  cases hmade
  rfl

section Rows
variable {seg : Segment} {context : ScanContext} (hsc : ScannerOf seg context sc) (build : Build)
  {columns : List Column} {chain : Chain} {offset count : Nat}
include hsc

/-- A leaf's column is looked up among the scanners before the mask. -/
theorem matchRows_missing (hsingle : chain.tail = []) (hmissing : seg.numColumns ≤ chain.head.column)
    (interp : EvalState) :
    Avoids .maskIndex (sc.matchRows build chain.predicate columns interp offset count) := by
  rw [matchRows_single hsingle, List.getElem?_eq_none (hsc.length.trans_le hmissing), orFault_none, bind_error]
  exact avoids_error (by decide)

variable (hfull : seg.Full) (hrows : offset + count ≤ seg.numRows)
include hfull hrows

theorem matchRows_short (hcount : count ≤ kScanBlockSize) (interp : EvalState) :
    Avoids .maskIndex (sc.matchRows build chain.predicate columns interp offset count) := by
  by_cases hsingle : chain.tail = []
  · rw [matchRows_single hsingle]
    refine (avoids_outOfBounds _).bind fun cs hcs => ?_
    have hcs := orFault_eq_ok.mp hcs
    obtain ⟨col, hget, hlen⟩ := hfull cs.columnIndex (by
      rw [hsc.columnIndex _ cs hcs, ← hsc.length]
      exact (List.getElem?_eq_some_iff.mp hcs).1)
    obtain ⟨mask, hmask⟩ := ColumnScanner.scanBlock_short build hget (hlen.symm ▸ hrows) hcount chain.head.op
      chain.head.constant .reset
    obtain ⟨rows, hkept⟩ := mask.survivors_ok hcount
    rw [hsc.segment, hmask, bind_ok, hkept]
    exact avoids_ok _ _
  · obtain ⟨rows, hkept⟩ := BlockFilter.reset.survivors_ok hcount
    rw [matchRows_many hsingle, hkept, bind_ok]
    exact compact_avoids (sc.evaluate_avoids chain.predicate columns offset) (by decide) interp rows

/-- Whichever way the rows of a tall block are found, the mask is left. -/
theorem matchRows_tall (hpresent : chain.tail = [] → chain.head.column < seg.numColumns)
    (hcount : kScanBlockSize < count) (interp : EvalState) :
    sc.matchRows build chain.predicate columns interp offset count = .error .maskIndex := by
  by_cases hsingle : chain.tail = []
  · have hlt : chain.head.column < sc.columnScanners.length := hsc.length.symm ▸ hpresent hsingle
    have hcs := List.getElem?_eq_getElem hlt
    obtain ⟨col, hget, hlen⟩ := hfull _ (hpresent hsingle)
    have hindex := hsc.columnIndex _ _ hcs
    rw [matchRows_single hsingle, hcs, orFault_some, bind_ok, hsc.segment,
      ColumnScanner.scanBlock_tall build (hindex.symm ▸ hget) (hlen.symm ▸ hrows) hcount]
    split
    · rfl
    · rw [bind_ok, BlockFilter.survivors_tall _ hcount, bind_error]
  · rw [matchRows_many hsingle, BlockFilter.survivors_tall _ hcount, bind_error]

end Rows

end Scanner.SegmentScanner

/-! ### A whole scan -/

namespace Scanner.SegmentScanner
variable {build : Build} {seg : Segment} {context : ScanContext} {chain : Chain}

/-- The blocks of a scan lie within the segment. -/
theorem blockEnd_le {size n block : Nat} (hblock : block < ZoneMap.blocksFor size n) :
    block * size + min size (n - block * size) ≤ n := by
  have hlt := ZoneMap.mul_lt_of_lt_blocksFor hblock
  omega

section
variable (hsc : ScannerOf seg context sc) (hfull : seg.Full) (hpos : 1 ≤ context.blockSize)
include hsc hfull hpos

/-- A scan is its loop over the blocks. -/
theorem exists_columns (build : Build) (predicate : Predicate) :
    ∃ columns, sc.scan build predicate = (do
      let p ← (List.range (ZoneMap.blocksFor context.blockSize seg.numRows)).foldlM
        (sc.scanBlock build predicate columns) {stats := sc.stats}
      return ({sc with stats := p.stats}, p.batches)) := by
  obtain ⟨columns, hcolumns⟩ := exists_mapM_ok (f := seg.getColumn) (l := List.range seg.numColumns)
    fun c hc => (hfull c (List.mem_range.mp hc)).imp fun _ h => h.1
  have hne : ¬ context.blockSize = 0 := by omega
  refine ⟨columns, ?_⟩
  rw [scan, hsc.context, if_neg hne, hsc.segment]
  simp only [hcolumns, bind_ok]

theorem scan_avoids (hskipped : ∀ block < ZoneMap.blocksFor context.blockSize seg.numRows,
      kScanBlockSize < min context.blockSize (seg.numRows - block * context.blockSize) →
      ¬ sc.Allows chain.predicate block ∨ chain.tail = [] ∧ seg.numColumns ≤ chain.head.column) :
    sc.scan build chain.predicate ≠ .error .maskIndex := by
  obtain ⟨columns, hscan⟩ := exists_columns hsc hfull hpos build chain.predicate
  rw [hscan]
  refine Avoids.bind (avoids_foldlM (fun block hblock p => ?_) _) fun _ _ => avoids_ok _ _
  have hblock := List.mem_range.mp hblock
  refine scanBlock_avoids (fun hallows interp => ?_) p
  rw [hsc.context, hsc.segment]
  by_cases htall : kScanBlockSize < min context.blockSize (seg.numRows - block * context.blockSize)
  · rcases hskipped block hblock htall with hskip | hmissing
    · exact (hskip hallows).elim
    · exact matchRows_missing hsc build hmissing.1 hmissing.2 interp
  · exact matchRows_short hsc build hfull (blockEnd_le hblock) (not_lt.mp htall) interp

/-- A tall block that is not skipped is where the scan leaves the mask, unless it does so before. -/
theorem scan_tall (hpresent : chain.tail = [] → chain.head.column < seg.numColumns) {block : Nat}
    (hblock : block < ZoneMap.blocksFor context.blockSize seg.numRows)
    (htall : kScanBlockSize < min context.blockSize (seg.numRows - block * context.blockSize))
    (hallows : sc.Allows chain.predicate block) :
    sc.scan build chain.predicate = .error .maskIndex := by
  obtain ⟨columns, hscan⟩ := exists_columns hsc hfull hpos build chain.predicate
  have herror : ∀ b ≤ block, sc.Allows chain.predicate b → ∀ p,
      sc.scanBlock build chain.predicate columns p b = .error .maskIndex := by
    intro b hb hallowed
    refine scanBlock_eq_error hallowed ?_
    rw [hsc.context, hsc.segment]
    -- The blocks before a tall one are tall.
    have hle := Nat.mul_le_mul_right context.blockSize hb
    exact matchRows_tall hsc build hfull (blockEnd_le (hb.trans_lt hblock)) hpresent (by omega)
  rw [hscan, foldlM_range_eq_error hblock (fun b hb p => ?_) (herror block le_rfl hallows), bind_error]
  obtain ⟨allowed, hallowed⟩ := sc.zoneMapAllows_total chain.predicate hallows.1 b
  cases allowed with
  | false => exact .inl (scanBlock_skipped hallowed p)
  | true => exact .inr (herror b hb.le ⟨hallowed, hallows.2⟩ p)

end

/-- **A scan stays within its mask exactly when every block of more rows than the mask has
is skipped by the zone map or the filter**, or its only leaf is of a column that is not there. -/
theorem scan_stays_in_mask_iff (build : Build) {seg : Segment} (hfull : seg.Full) (chain : Chain)
    {context : ScanContext} (hpos : 1 ≤ context.blockSize) {sc : SegmentScanner}
    (hnew : SegmentScanner.new seg context = .ok sc) (stats : ScanStats) :
    scan build {sc with stats} chain.predicate ≠ .error .maskIndex ↔
      ∀ block < ZoneMap.blocksFor context.blockSize seg.numRows,
        kScanBlockSize < min context.blockSize (seg.numRows - block * context.blockSize) →
        ¬ sc.Allows chain.predicate block ∨ chain.tail = [] ∧ seg.numColumns ≤ chain.head.column := by
  have hsc := scannerOf_new hnew stats
  constructor
  · intro hstays block hblock htall
    by_contra hcond
    push Not at hcond
    exact hstays (scan_tall hsc hfull hpos hcond.2 hblock htall hcond.1)
  · exact scan_avoids hsc hfull hpos

end Scanner.SegmentScanner

/-- Blocks of up to 16384 rows over a segment of five. -/
theorem sample_stays_in_mask :
    (IntactSegment.sample.scanner {blockSize := 16384}).scan .avx512 IntactSegment.sampleChain.predicate ≠
      .error .maskIndex := by
  refine (SegmentScanner.scan_stays_in_mask_iff .avx512 IntactSegment.sample.segment_full _ (by decide)
    (IntactSegment.sample.new_eq {blockSize := 16384}) {}).mpr fun block _ htall => ?_
  have hrows : IntactSegment.sample.segment.numRows = 5 := by decide +kernel
  have hsize : kScanBlockSize = 8192 := rfl
  rw [hrows] at htall
  omega

/-- A plain column of zeros. -/
def IntegerColumn.zeros (rows : Nat) : IntegerColumn where
  type := .int32
  integer := DataType.isInteger_int32
  encoding := .plain
  codec := Encoding.hasIntegerCodec_plain
  values := List.replicate rows 0
  nulls := List.replicate rows false
  flagged := by rw [List.length_replicate, List.length_replicate]

def IntegerTable.zeros (rows : Nat) : IntegerTable where
  columns := [.zeros rows]
  rows
  equalLength := by
    intro c hc
    cases List.mem_singleton.mp hc
    exact List.length_replicate

/-- Only the column's own size counts, not that of the file. -/
theorem IntegerTable.zeros_entriesFit {rows : Nat} (h : 4 * rows < 2 ^ 32) : (zeros rows).EntriesFit := by
  have hsize : (IntegerColumn.zeros rows).encodedSize = 4 * rows := by
    have hencode : Encoding.encodeValues .int32 .plain (List.replicate rows 0) =
        .ok (storeWords 4 (List.replicate rows 0)) := rfl
    rw [IntegerColumn.encodedSize_eq _ hencode, length_storeWords, List.length_replicate]
  refine ⟨⟨Nat.one_lt_two_pow (by decide), fun i c hc => .inr ?_⟩, fun c hc => ?_⟩
  · cases i with
    | zero =>
      show headerSize 1 + 0 < 2 ^ 32
      decide
    | succ i => cases hc
  · cases List.mem_singleton.mp hc
    rwa [hsize]

theorem IntegerTable.zeros_fit (rows : Nat) : (zeros rows).ColumnsFit := by
  intro c hc
  cases List.mem_singleton.mp hc
  exact .inr trivial

/-- A block of one row more than the mask has. -/
theorem zeros_leave_mask :
    ∃ seg sc, writeSegment (IntegerTable.zeros 8193).calls = .ok seg ∧ seg.Full ∧
      SegmentScanner.new seg (.unpruned 8193) = .ok sc ∧
      sc.scan .scalar (Chain.predicate {head := ⟨.lt, .int32, 0, 1⟩}) = .error .maskIndex := by
  obtain ⟨w, s, hrun, hs, hof⟩ :=
    IntegerTable.exists_segmentOf (IntegerTable.zeros_entriesFit (by decide)) (IntegerTable.zeros_fit 8193)
  have hwrite : writeSegment (IntegerTable.zeros 8193).calls = .ok s.segment := by
    rw [writeSegment, hrun, hs]
    rfl
  have hrows : s.segment.numRows = 8193 := hof.numRows (List.cons_ne_nil _ _)
  have hchecks : Checks (s.scanner (.unpruned 8193)) (Chain.predicate {head := ⟨.lt, .int32, 0, 1⟩})
      (fun _ => true) true := IntactSegment.checks_off rfl rfl _
  have hcolumn : 0 < s.segment.numColumns := by
    rw [← s.length_columns, hof.columns]
    exact Nat.one_pos
  have hblock : 0 < ZoneMap.blocksFor 8193 s.segment.numRows := by
    rw [hrows]
    decide
  have htall : kScanBlockSize < min 8193 (s.segment.numRows - 0 * 8193) := by
    rw [hrows]
    decide
  refine ⟨s.segment, _, hwrite, s.segment_full, s.new_eq _, ?_⟩
  exact SegmentScanner.scan_tall (SegmentScanner.scannerOf_new (s.new_eq (.unpruned 8193)) {}) s.segment_full
    (by decide) (fun _ => hcolumn) hblock htall ⟨hchecks.zoneMap 0, hchecks.bloomFilter⟩

end ColumnarStore
