import ColumnarStore.Scanner.Loop

/-! Which rows of a block a scan finds.

A chain of several leaves goes through the interpreter row by row and finds the rows on
which the chain is true. A single leaf goes through a kernel, which compares with the
constant cut to the type of the column and does not look at the rest of the program. A
null test has no constant, so the interpreter decides it: it holds of the value 0. -/
namespace ColumnarStore
open Foundation Blocks Predicates Scanner SegmentScanner

/-! ### Values -/

section Numeric
variable {t : DataType} (ht : t.isNumeric = true)
include ht

/-- The eight bytes a value is read into hold any numeric value. -/
theorem DataType.typeSize_le : t.typeSize ≤ 8 := by
  cases t <;> first | decide | cases ht

theorem widenValue_storeWord (x : Native t) :
    widenValue (storeWord t.typeSize x) t = .ok (x.toInt64 t) := by
  have hload := loadWord_storeWord t.typeSize x []
  rw [List.append_nil] at hload
  cases t with
  | boolean => cases ht
  | varchar => cases ht
  | _ => simp only [widenValue, hload, orFault_some, bind_ok, pure_eq_ok]

end Numeric

namespace IntactSegment
variable (s : IntactSegment)

/-! ### Scanners -/

/-- The scanner of an intact segment. -/
def scanner (context : ScanContext) : SegmentScanner where
  segment := s.segment
  columnScanners := (List.range s.segment.numColumns).map fun i =>
    ⟨i, s.zoneMaps.getD i {}, s.bloomFilters.getD i .empty⟩
  context := context

theorem new_eq (context : ScanContext) : SegmentScanner.new s.segment context = .ok (s.scanner context) := by
  rw [SegmentScanner.new, mapM_ok (g := fun i => (⟨i, s.zoneMaps.getD i {}, s.bloomFilters.getD i .empty⟩ :
    ColumnScanner)) ?_]
  · rfl
  · intro i hi
    have hi := List.mem_range.mp hi
    rw [getD_of_mapM_range s.zoneMaps_read hi {}, bind_ok, getD_of_mapM_range s.bloomFilters_read hi .empty]
    rfl

variable {s} {context : ScanContext} {c : Nat} {col : Column} (hcol : s.columns[c]? = some col)
include hcol

theorem scanner_column : (s.scanner context).columnScanners[c]? =
    some ⟨c, s.zoneMaps.getD c {}, s.bloomFilters.getD c .empty⟩ := by
  rw [scanner, getElem?_map_range (lt_numColumns hcol)]

/-! ### The interpreter's rows -/

theorem readValues_row {r : Nat} (hr : r < s.numRows) :
    col.readValues r 1 = .ok (storeWord col.type.typeSize (col.vec.data.getD r 0)) := by
  have hdata : r < col.vec.data.length := by rw [length_data hcol]; exact hr
  rw [Column.readValues, if_pos (by omega), take_drop_eq_map _ (by omega)]
  simp

/-- One value of a row, as the interpreter's row buffer gets it. -/
theorem read_cell {r : Nat} (hr : r < s.numRows) : (do
    let raw ← col.readValues r 1
    let type ← s.segment.columnType c
    if 8 < raw.length then .error .outOfBounds else widenValue raw type : Outcome Int64Bits) =
      .ok (s.cell r c) := by
  have hnum := s.numeric col (List.mem_of_getElem? hcol)
  rw [readValues_row hcol hr, bind_ok, columnType hcol, bind_ok, length_storeWord,
    if_neg (not_lt.mpr (DataType.typeSize_le hnum)), widenValue_storeWord hnum, cell_eq hcol]

omit hcol in
/-- A row through the interpreter is the program on the row's cells. -/
theorem evaluate_eq {predicate : Predicate} {blockOffset i : Nat} (hr : blockOffset + i < s.numRows)
    (interp : EvalState) :
    (s.scanner context).evaluate predicate s.columns blockOffset interp i =
      evaluateRow predicate.program interp
        (s.columns.zipIdx.map fun entry => [s.cell (blockOffset + i) entry.2]) 0 := by
  have hread : ∀ entry ∈ s.columns.zipIdx, (do
      let raw ← entry.1.readValues (blockOffset + i) 1
      let type ← (s.scanner context).segment.columnType entry.2
      if 8 < raw.length then .error .outOfBounds else widenValue raw type : Outcome Int64Bits) =
        .ok (s.cell (blockOffset + i) entry.2) := by
    intro entry hentry
    exact read_cell (List.mk_mem_zipIdx_iff_getElem?.mp hentry) hr
  rw [SegmentScanner.evaluate]
  show (s.columns.zipIdx.mapM _ >>= _) = _
  rw [mapM_ok hread, bind_ok, List.map_map]
  rfl

/-! ### Rows found by the interpreter -/

omit hcol

/-- The interpreter's memory for row `r`. -/
def rowCells (s : IntactSegment) (r : Nat) : Columns := s.columns.zipIdx.map fun entry => [s.cell r entry.2]

theorem survivors_reset {count : Nat} (h : count ≤ kScanBlockSize) :
    BlockFilter.reset.survivors count = .ok (List.range count) := by
  rw [BlockFilter.reset, (BlockFilter.shows_setAll h true).survivors, List.filter_true]

/-- A program that is not a single comparison keeps the rows on which the interpreter
returns true. -/
theorem selects_interpreted (build : Build) {predicate : Predicate} {keep : Nat → Bool}
    (hslow : predicate.columnPredicates.length ≠ 1 ∨ predicate.program.constants.length ≠ 1)
    (heval : ∀ r, r < s.numRows → ∀ interp,
      ∃ interp', evaluateRow predicate.program interp (s.rowCells r) 0 = .ok (keep r, interp')) :
    Selects build s (s.scanner context) predicate keep := by
  intro interp offset count hcount hrows
  have hrow : ∀ interp, ∀ i ∈ List.range count, ∃ interp',
      (s.scanner context).evaluate predicate s.columns offset interp i =
        .ok (keep (offset + i), interp') := by
    intro interp i hi
    have hi := List.mem_range.mp hi
    rw [evaluate_eq (by omega)]
    exact heval (offset + i) (by omega) interp
  unfold SegmentScanner.matchRows
  split
  · next hpreds _ hconsts =>
    simp [hpreds, hconsts] at hslow
  · rw [survivors_reset hcount, bind_ok]
    exact compact_ok hrow Fault.outOfBounds interp

/-- Every leaf's column is one of the segment's. -/
def HasColumns (s : IntactSegment) (chain : Chain) : Prop :=
  ∀ leaf ∈ chain.leaves, leaf.column < s.columns.length

instance (s : IntactSegment) (chain : Chain) : Decidable (s.HasColumns chain) :=
  inferInstanceAs (Decidable (∀ leaf ∈ chain.leaves, leaf.column < s.columns.length))

theorem shows_rowCells {c : Nat} (hc : c < s.columns.length) (r : Nat) : Shows (s.rowCells r) 0 (s.cell r) c := by
  refine ⟨[s.cell r c], ?_, rfl⟩
  rw [rowCells, List.getElem?_map, List.getElem?_zipIdx, List.getElem?_eq_getElem hc]
  simp

theorem readable_rowCells {chain : Chain} (h : s.HasColumns chain) (r : Nat) :
    Readable (s.rowCells r) 0 (s.cell r) chain.leaves :=
  fun leaf hleaf => shows_rowCells (h leaf hleaf) r

/-- A chain of two leaves or more keeps the rows on which it is true. -/
theorem selects_chain (build : Build) {chain : Chain} (hcolumns : s.HasColumns chain)
    (hmany : chain.tail ≠ []) :
    Selects build s (s.scanner context) chain.predicate fun r => chain.eval (s.row r) := by
  refine selects_interpreted build (.inl ?_) fun r _ interp =>
    ⟨_, (reaches_chain chain (readable_rowCells hcolumns r)).returns interp⟩
  rw [(tables_chain chain).columnPredicates, List.length_map, Chain.leaves, List.length_cons,
    List.length_map]
  have := List.length_pos_iff_ne_nil.mpr hmany
  omega

end IntactSegment

/-! ### Rows found by a kernel -/

/-- The constant of a leaf as kernels and zone maps of a column of type `t` see it. -/
def Predicates.Leaf.cut (leaf : Leaf) (t : DataType) : Native t := leaf.constant.setWidth _

theorem filterBlock_ok (build : Build) {t : DataType} (ht : t.isInteger = true) {data : List (Native t)}
    (hdata : data.length ≤ kScanBlockSize) (op : Comparison) (value : Native t) (mask : BlockFilter) :
    ∃ mask', ColumnScanner.filterBlock build t data value op.predicateType mask = .ok mask' ∧
      mask'.Shows data.length fun i => op.holds (data.getD i 0).toInt value.toInt := by
  cases op with
  | eq =>
    obtain ⟨mask', hok, hshows⟩ := VectorFilter.kernel_spec build ht hdata (· == value) mask
    refine ⟨mask', hok, fun i hi => (hshows i hi).trans (congrArg Except.ok ?_)⟩
    show (data.getD i 0 == value) = decide ((data.getD i 0).toInt = value.toInt)
    simp only [BitVec.toInt_inj, beq_eq_decide]
  | ne =>
    obtain ⟨mask', hok, hshows⟩ := VectorFilter.kernel_spec build ht hdata (· == value) mask
    obtain ⟨mask'', hok', hshows'⟩ := hshows.negate hdata
    refine ⟨mask'', ?_, fun i hi => (hshows' i hi).trans (congrArg Except.ok ?_)⟩
    · show (mask.storeAll _ >>= _) = _
      rw [VectorFilter.equal, hok]
      exact hok'
    · show (!(data.getD i 0 == value)) = decide ((data.getD i 0).toInt ≠ value.toInt)
      simp only [ne_eq, BitVec.toInt_inj, decide_not, beq_eq_decide]
  | lt =>
    obtain ⟨mask', hok, hshows⟩ :=
      VectorFilter.kernel_spec build ht hdata (fun x => x.slt value) mask
    exact ⟨mask', hok, fun i hi => (hshows i hi).trans (congrArg Except.ok BitVec.slt_eq_decide)⟩
  | gt =>
    obtain ⟨mask', hok, hshows⟩ :=
      VectorFilter.kernel_spec build ht hdata (fun x => x.sle value) mask
    obtain ⟨mask'', hok', hshows'⟩ := hshows.negate hdata
    refine ⟨mask'', ?_, fun i hi => (hshows' i hi).trans (congrArg Except.ok ?_)⟩
    · show (mask.storeAll _ >>= _) = _
      rw [VectorFilter.lessEqual, hok]
      exact hok'
    · show (!(data.getD i 0).sle value) = decide (value.toInt < (data.getD i 0).toInt)
      simp only [BitVec.sle_eq_decide, ← decide_not, not_le]

theorem Predicates.Comparison.predicateType_ne_null (op : Comparison) :
    op.predicateType ≠ .isNull ∧ op.predicateType ≠ .isNotNull := by
  cases op <;> exact ⟨by decide, by decide⟩

/-- A block of an integer column, copied. -/
theorem Segment.getColumnData_block {seg : Segment} {c : Nat} {col : Column} (hget : seg.getColumn c = .ok col)
    (hint : col.type.isInteger = true) {offset count : Nat} (h : offset + count ≤ col.vec.data.length) :
    seg.getColumnData c offset count =
      .ok (storeWords col.type.typeSize ((col.vec.data.drop offset).take count)) := by
  rw [Segment.getColumnData, (Segment.getColumn_spec hget).1, bind_ok, hget, bind_ok, hint, Bool.true_or, if_pos rfl]
  exact if_pos h

/-- On an integer column a block goes through the kernel of its type. -/
theorem Scanner.ColumnScanner.scanBlock_integer (build : Build) {seg : Segment} {cs : ColumnScanner} {col : Column}
    (hget : seg.getColumn cs.columnIndex = .ok col) (hint : col.type.isInteger = true) {offset count : Nat}
    (hzero : count ≠ 0) (h : offset + count ≤ col.vec.data.length) (op : Comparison) (constant : Int64Bits)
    (mask : BlockFilter) :
    cs.scanBlock build seg offset count constant op.predicateType mask =
      ColumnScanner.filterBlock build col.type ((col.vec.data.drop offset).take count)
        (constant.setWidth (8 * col.type.typeSize)) op.predicateType mask := by
  have hlen : ((col.vec.data.drop offset).take count).length = count := by
    rw [List.length_take, List.length_drop]
    omega
  have hload := loadWords_storeWords col.type.typeSize ((col.vec.data.drop offset).take count) []
  rw [List.append_nil, hlen] at hload
  have hbytes : ColumnScanner.filterBytes build col.type count
      (storeWords col.type.typeSize ((col.vec.data.drop offset).take count)) constant op.predicateType mask =
      ColumnScanner.filterBlock build col.type ((col.vec.data.drop offset).take count)
        (constant.setWidth (8 * col.type.typeSize)) op.predicateType mask := by
    rw [ColumnScanner.filterBytes, hload, orFault_some, bind_ok]
  have hnull := op.predicateType_ne_null
  rw [ColumnScanner.scanBlock, if_neg hzero, (Segment.getColumn_spec hget).1, bind_ok, if_neg hnull.1,
    if_neg hnull.2, Segment.getColumnData_block hget hint h, bind_ok, ← hbytes]
  generalize storeWords col.type.typeSize ((col.vec.data.drop offset).take count) = bytes
  rcases DataType.eq_of_isInteger hint with htype | htype
  · rw [htype]
  · rw [htype]

namespace IntactSegment
variable {s : IntactSegment} {context : ScanContext} {c : Nat} {col : Column}
  (hcol : s.columns[c]? = some col) (hint : col.type.isInteger = true)
include hcol hint

/-- The mask of a block of an integer column shows the comparison of each value. -/
theorem scanBlock_ok (build : Build) (cs : ColumnScanner) (hcs : cs.columnIndex = c) {offset count : Nat}
    (hcount : count ≤ kScanBlockSize) (h : offset + count ≤ s.numRows) (op : Comparison)
    (constant : Int64Bits) (mask : BlockFilter) :
    ∃ mask', cs.scanBlock build s.segment offset count constant op.predicateType mask = .ok mask' ∧
      mask'.Shows count fun i =>
        op.holds (s.row (offset + i) c) (constant.setWidth (8 * col.type.typeSize)).toInt := by
  by_cases hzero : count = 0
  · refine ⟨mask, if_pos hzero, fun i hi => ?_⟩
    omega
  have hdata : col.vec.data.length = s.numRows := length_data hcol
  have hlen : ((col.vec.data.drop offset).take count).length = count := by
    rw [List.length_take, List.length_drop]
    omega
  obtain ⟨mask', hok, hshows⟩ := filterBlock_ok build hint (hlen.symm ▸ hcount) op
    (constant.setWidth (8 * col.type.typeSize)) mask
  have hget : s.segment.getColumn cs.columnIndex = .ok col := hcs.symm ▸ getColumn hcol
  refine ⟨mask', ?_, fun i hi => ?_⟩
  · rw [ColumnScanner.scanBlock_integer build hget hint hzero (hdata.symm ▸ h), hok]
  · have hvalue : ((col.vec.data.drop offset).take count).getD i 0 = col.vec.data.getD (offset + i) 0 := by
      rw [List.getD_eq_getElem?_getD, List.getElem?_take_of_lt hi, List.getElem?_drop,
        ← List.getD_eq_getElem?_getD]
    have hrow : s.row (offset + i) c = (col.vec.data.getD (offset + i) 0).toInt := by
      show (s.cell (offset + i) c).toInt = _
      rw [cell_eq hcol, Native.toInt_toInt64 hint]
    refine (hshows i (hlen.symm ▸ hi)).trans (congrArg Except.ok ?_)
    simp only [hvalue, hrow]

/-- A program that counts as a single comparison keeps the rows whose value compares so
with the constant, cut to the type of the column. -/
theorem selects_comparison (build : Build) {predicate : Predicate} {op : Comparison} {constant : Int64Bits}
    (hpreds : predicate.columnPredicates = [op.predicateType])
    (hcolumns : predicate.program.columnIndices = [c]) (hconstants : predicate.program.constants = [constant]) :
    Selects build s (s.scanner context) predicate fun r =>
      op.holds (s.row r c) (constant.setWidth (8 * col.type.typeSize)).toInt := by
  intro interp offset count hcount hrows
  obtain ⟨mask, hmask, hshows⟩ := scanBlock_ok hcol hint build
    ⟨c, s.zoneMaps.getD c {}, s.bloomFilters.getD c .empty⟩ rfl hcount hrows op constant .reset
  refine ⟨interp, ?_⟩
  simp only [SegmentScanner.matchRows, hpreds, hcolumns, hconstants, scanner_column hcol, orFault_some, bind_ok]
  rw [show (s.scanner context).segment = s.segment from rfl, hmask, bind_ok, hshows.survivors]
  rfl

/-- So does a single leaf. -/
theorem selects_leaf (build : Build) {chain : Chain} (hcolumn : chain.head.column = c)
    (hsingle : chain.tail = []) :
    Selects build s (s.scanner context) chain.predicate fun r =>
      chain.head.op.holds (s.row r c) (chain.head.cut col.type).toInt := by
  have htables := tables_chain chain
  have hleaves : chain.leaves = [chain.head] := by rw [Chain.leaves, hsingle, List.map_nil]
  refine selects_comparison hcol hint build ?_ ?_ ?_
  · rw [htables.columnPredicates, hleaves, List.map_singleton]
  · rw [htables.columnIndices, hleaves, List.map_singleton, hcolumn]
  · rw [htables.constants, hleaves, List.map_singleton]

end IntactSegment

/-! ### Skipped blocks -/

/-- A 64-bit value is its own key. -/
theorem Scanner.ColumnScanner.bloomFilterCheckInt64_eq (cs : ColumnScanner) (value : Int64Bits) :
    cs.bloomFilterCheckInt64 value = cs.bloomFilter.mightContain value :=
  congrArg cs.bloomFilter.mightContain (BitVec.setWidth_eq value)

namespace IntactSegment
variable {s : IntactSegment} {context : ScanContext} {chain : Chain} {col : Column}

/-- The zone map of the first leaf's column on a block, the constant cut to the type of
the column. -/
def zoneMapKeeps (s : IntactSegment) (chain : Chain) (col : Column) (block : Nat) : Bool :=
  !col.type.isInteger || (s.zoneMaps.getD chain.head.column {}).shouldScanBlock block col.type
    chain.head.op.predicateType (chain.head.cut col.type)

/-- The filter of the first leaf's column, if the leaf is an equality. -/
def bloomFilterKeeps (s : IntactSegment) (chain : Chain) : Outcome Bool :=
  if chain.head.op = .eq then (s.bloomFilters.getD chain.head.column .empty).mightContain chain.head.constant
  else .ok true

theorem zoneMapAllows_chain (hcol : s.columns[chain.head.column]? = some col) (block : Nat) :
    (s.scanner context).zoneMapAllows chain.predicate block =
      .ok (!context.enableZoneMapPruning || s.zoneMapKeeps chain col block) := by
  have htables := tables_chain chain
  unfold SegmentScanner.zoneMapAllows
  cases hpruning : context.enableZoneMapPruning with
  | false => simp [scanner, hpruning]
  | true =>
    have htype : (s.scanner context).segment.columnType chain.head.column = .ok col.type := columnType hcol
    simp only [htables.columnPredicates, htables.constants, htables.columnIndices, Chain.leaves,
      List.map_cons, List.getElem?_cons_zero, orFault_some, bind_ok, htype, scanner_column hcol]
    simp only [scanner, hpruning, zoneMapKeeps, Leaf.cut, Bool.not_true, Bool.false_or]
    generalize chain.head.constant = constant
    generalize col.type = t
    cases t with
    | int64 =>
      rw [show constant.setWidth (8 * DataType.int64.typeSize) = constant from BitVec.setWidth_eq _]
      rfl
    | _ => rfl

theorem bloomFilterAllows_chain (hcol : s.columns[chain.head.column]? = some col) :
    (s.scanner context).bloomFilterAllows chain.predicate =
      if context.enableBloomFilter then s.bloomFilterKeeps chain else .ok true := by
  have htables := tables_chain chain
  unfold SegmentScanner.bloomFilterAllows
  cases hbloom : context.enableBloomFilter with
  | false => simp [scanner, hbloom]
  | true =>
    simp only [htables.columnPredicates, htables.constants, htables.columnIndices, Chain.leaves,
      List.map_cons, List.getElem?_cons_zero, orFault_some, bind_ok, scanner_column hcol]
    simp only [scanner, hbloom, bloomFilterKeeps, ColumnScanner.bloomFilterCheckInt64_eq]
    cases chain.head.op <;> rfl

end IntactSegment

end ColumnarStore
