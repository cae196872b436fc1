import ColumnarStore.Scanner.Selection
import ColumnarStore.Segment.Written

/-! Scans that skip no block.

Without pruning a scan of integer columns delivers the rows on which the predicate is
true (`scan_delivers_matches`), by whichever of the two paths. Both are instances of
`scanSegment_spec`, which leaves the checks and the selection open. -/
namespace ColumnarStore
open Foundation Blocks Predicates Scanner

/-- Neither check. -/
def Scanner.ScanContext.unpruned (blockSize : Nat) : ScanContext :=
  {blockSize, enableZoneMapPruning := false, enableBloomFilter := false}

namespace IntactSegment
variable {s : IntactSegment}

theorem numRows_lt_of_ne_nil (h : s.columns ≠ []) : s.numRows < 2 ^ 32 := by
  obtain ⟨col, rest, hcons⟩ := List.exists_cons_of_ne_nil h
  have hcol : s.columns[0]? = some col := by
    rw [hcons]
    rfl
  exact numRows_lt hcol

/-- A scan of an intact segment, by what its checks return and its blocks select. -/
theorem scanSegment_spec {build : Build} {context : ScanContext} {predicate : Predicate}
    {zone : Nat → Bool} {bloom : Bool} {keep : Nat → Bool} (hpos : 0 < context.blockSize)
    (hsize : context.blockSize ≤ kScanBlockSize) (hcolumns : s.columns ≠ [])
    (hchecks : Checks (s.scanner context) predicate zone bloom)
    (hselects : Selects build s (s.scanner context) predicate keep) :
    ∃ batches,
      scanSegment build s.segment context predicate =
        .ok (tally context.blockSize s.numRows zone bloom keep {}
          (ZoneMap.blocksFor context.blockSize s.numRows), batches) ∧
      Delivers s.columns batches
        ((List.range s.numRows).filter fun r => allowed context.blockSize zone bloom r && keep r) := by
  obtain ⟨batches, hscan, hdelivers⟩ :=
    scan_spec rfl hpos hsize (numRows_lt_of_ne_nil hcolumns) hchecks hselects
  refine ⟨batches, ?_, hdelivers⟩
  rw [scanSegment, new_eq, bind_ok, hscan]
  rfl

/-- The constant of every leaf is a value of the type of the leaf's column. -/
def Representable (s : IntactSegment) (chain : Chain) : Prop :=
  ∀ leaf ∈ chain.leaves, ∀ col, s.columns[leaf.column]? = some col →
    ∃ v : Native col.type, v.toInt = leaf.constant.toInt

/-- Cutting a constant to a type that has it changes nothing. -/
theorem toInt_cut {t : DataType} (ht : t.isInteger = true) {leaf : Leaf}
    (h : ∃ v : Native t, v.toInt = leaf.constant.toInt) : (leaf.cut t).toInt = leaf.constant.toInt := by
  obtain ⟨v, hv⟩ := h
  have hconstant : leaf.constant = v.toInt64 t := by
    rw [← BitVec.toInt_inj, Native.toInt_toInt64 ht, hv]
  rw [Leaf.cut, hconstant, Native.setWidth_toInt64 ht, Native.toInt_toInt64 ht]

/-- A chain without `Not`s keeps the rows on which it is true, by either path. -/
theorem selects_comparisons (build : Build) (context : ScanContext) {chain : Chain}
    (hint : ∀ col ∈ s.columns, col.type.isInteger = true) (hcolumns : s.HasColumns chain)
    (hnots : chain.headNots = 0) (hrep : s.Representable chain) :
    Selects build s (s.scanner context) chain.predicate fun r => chain.eval (s.row r) := by
  by_cases hmany : chain.tail = []
  · have hhead : chain.head ∈ chain.leaves := List.mem_cons_self
    obtain ⟨col, hcol⟩ : ∃ col, s.columns[chain.head.column]? = some col :=
      ⟨_, List.getElem?_eq_getElem (hcolumns _ hhead)⟩
    have hint := hint col (List.mem_of_getElem? hcol)
    have hkeep : (fun r => chain.eval (s.row r)) = fun r =>
        chain.head.op.holds (s.row r chain.head.column) (chain.head.cut col.type).toInt := by
      funext r
      rw [toInt_cut hint (hrep _ hhead col hcol), Chain.eval, hmany, hnots]
      rfl
    rw [hkeep]
    exact selects_leaf hcol hint build rfl hmany
  · exact selects_chain build hcolumns hmany

/-- The rows on which the chain is true. -/
def matching (s : IntactSegment) (chain : Chain) : List Nat :=
  (List.range s.numRows).filter fun r => chain.eval (s.row r)

/-- With both checks off no block is skipped. -/
theorem checks_off {context : ScanContext} (hzone : context.enableZoneMapPruning = false)
    (hbloom : context.enableBloomFilter = false) (predicate : Predicate) :
    Checks (s.scanner context) predicate (fun _ => true) true := by
  constructor
  · intro block
    simp [SegmentScanner.zoneMapAllows, scanner, hzone]
  · simp [SegmentScanner.bloomFilterAllows, scanner, hbloom]

/-- A scan that skips no block, by what its blocks select. -/
theorem scan_unpruned {build : Build} (context : ScanContext) {predicate : Predicate}
    {keep : Nat → Bool} (hpos : 0 < context.blockSize) (hsize : context.blockSize ≤ kScanBlockSize)
    (hzone : context.enableZoneMapPruning = false) (hbloom : context.enableBloomFilter = false)
    (hcolumns : s.columns ≠ []) (hselects : Selects build s (s.scanner context) predicate keep) :
    ∃ stats batches,
      scanSegment build s.segment context predicate = .ok (stats, batches) ∧
      Delivers s.columns batches ((List.range s.numRows).filter keep) ∧
      stats.rowsReturned = deliveredRows batches ∧
      stats.rowsReturned + stats.rowsFiltered = s.numRows := by
  obtain ⟨batches, hscan, hdelivers⟩ :=
    scanSegment_spec hpos hsize hcolumns (checks_off hzone hbloom predicate) hselects
  have hkeep : (fun r => allowed context.blockSize (fun _ => true) true r && keep r) = keep := rfl
  have hdrop : (fun r => allowed context.blockSize (fun _ => true) true r && !keep r) =
      fun r => !keep r := rfl
  have hsplit := List.length_eq_length_filter_add keep (l := List.range s.numRows)
  rw [List.length_range] at hsplit
  rw [hkeep] at hdelivers
  refine ⟨_, batches, hscan, hdelivers, ?_, ?_⟩
  · rw [hdelivers.count]
    simp only [tally, visited_all hpos hsize (numRows_lt_of_ne_nil hcolumns), hkeep, Nat.zero_add]
  · simp only [tally, visited_all hpos hsize (numRows_lt_of_ne_nil hcolumns), hkeep, hdrop, Nat.zero_add]
    exact hsplit.symm

theorem columns_ne_nil {chain : Chain} (hcolumns : s.HasColumns chain) : s.columns ≠ [] := by
  have hlt := hcolumns chain.head List.mem_cons_self
  exact List.ne_nil_of_length_pos (by omega)

/-! ### A segment of two columns -/

def sampleCalls : List WriterCall :=
  [.addColumn .int32 [3, -1, 4, 1, 5] (List.replicate 5 false) .plain,
   .addColumn .int64 [2, 7, 1, 8, 2] (List.replicate 5 false) .delta]

/-- What the writer makes of the calls. -/
def sampleSegment : Segment := (writeSegment sampleCalls).toOption.getD ⟨{}, []⟩

def sample : IntactSegment where
  segment := sampleSegment
  columns := [.ofValues .int32 [3, -1, 4, 1, 5], .ofValues .int64 [2, 7, 1, 8, 2]]
  zoneMaps := [{}, {}]
  bloomFilters := [.empty, .empty]
  columns_read := by decide +kernel
  zoneMaps_read := by decide +kernel
  bloomFilters_read := rfl
  numeric := by decide
  full := by decide +kernel

/-! ### Scans without pruning -/

/-- **Without pruning a scan delivers the rows on which a chain of comparisons is true,
in ascending order and each once, and counts them.** -/
theorem scan_delivers_matches (build : Build) (s : IntactSegment)
    (hint : ∀ col ∈ s.columns, col.type.isInteger = true) (chain : Chain)
    (hcolumns : s.HasColumns chain) (hnots : chain.headNots = 0 ∧ ∀ link ∈ chain.tail, link.2.2 = 0)
    (hrep : s.Representable chain) (context : ScanContext) (hpos : 1 ≤ context.blockSize)
    (hsize : context.blockSize ≤ kScanBlockSize) (hzone : context.enableZoneMapPruning = false)
    (hbloom : context.enableBloomFilter = false) :
    ∃ stats batches,
      scanSegment build s.segment context chain.predicate = .ok (stats, batches) ∧
      Delivers s.columns batches (s.matching chain) ∧
      stats.rowsReturned = deliveredRows batches ∧
      stats.rowsReturned + stats.rowsFiltered = s.numRows := by
  exact scan_unpruned context hpos hsize hzone hbloom (columns_ne_nil hcolumns)
    (selects_comparisons build context hint hcolumns hnots.1 hrep)

/-- Less than 4 in the first column or equal to 2 in the second. -/
def sampleChain : Chain := {head := ⟨.lt, .int32, 0, 4⟩, tail := [(.or, ⟨.eq, .int64, 1, 2⟩, 0)]}

theorem sample_scan_delivers :
    ∃ stats batches,
      scanSegment .avx512 sample.segment
          {blockSize := 2, enableZoneMapPruning := false, enableBloomFilter := false}
          sampleChain.predicate = .ok (stats, batches) ∧
      Delivers sample.columns batches (sample.matching sampleChain) ∧
      stats.rowsReturned = deliveredRows batches ∧
      stats.rowsReturned + stats.rowsFiltered = sample.numRows := by
  refine scan_delivers_matches .avx512 sample (by decide) sampleChain (by decide) (by decide) ?_ _
    (by decide) (by decide) rfl rfl
  intro leaf hleaf col hcol
  simp only [sampleChain, Chain.leaves, List.map_cons, List.map_nil, List.mem_cons, List.not_mem_nil,
    or_false] at hleaf
  rcases hleaf with rfl | rfl
  · cases hcol
    exact ⟨4, by decide⟩
  · cases hcol
    exact ⟨2, by decide⟩

end IntactSegment

end ColumnarStore
