import ColumnarStore.Scanner.Aggregate
import ColumnarStore.Scanner.BloomPruning
import ColumnarStore.Segment.Reopened
import ColumnarStore.Segment.Tables

/-! From a table to a file to a scan.

A table of integer columns is written to a file, the file is opened and the segment is
scanned. What the scan delivers is said of the table alone (`file_scans`): the rows on
which the predicate is true, whatever the blocks are and whether or not zone maps are
asked. Only a filter that was never added, when it is asked, takes all rows away. -/
namespace ColumnarStore
open Foundation Predicates Scanner

namespace IntegerTable
variable {t : IntegerTable} {chain : Chain}

/-- The number in row `r` of column `c`. -/
def value (t : IntegerTable) (r c : Nat) : Int :=
  match t.columns[c]? with
  | none => 0
  | some col => (col.values.getD r 0).toInt

/-- The rows on which the chain is true. -/
def matching (t : IntegerTable) (chain : Chain) : List Nat :=
  (List.range t.rows).filter fun r => chain.eval (t.value r)

def HasColumns (t : IntegerTable) (chain : Chain) : Prop := ∀ leaf ∈ chain.leaves, leaf.column < t.columns.length

/-- The constant of every leaf is a value of the type of the leaf's column. -/
def Representable (t : IntegerTable) (chain : Chain) : Prop :=
  ∀ leaf ∈ chain.leaves, ∀ c, t.columns[leaf.column]? = some c →
    ∃ v : Native c.type, v.toInt = leaf.constant.toInt

/-- A scan of the chain asks a filter. -/
def asksFilter (context : ScanContext) (chain : Chain) : Bool :=
  context.enableBloomFilter && decide (chain.head.op = .eq)

/-! ### The segment of a table -/

/-- The file of the table opens to the segment: its sizes fit their fields. -/
theorem open_file (layout : MetaLayout) {w : SegmentWriter} (hrun : SegmentWriter.run {} t.calls = .ok w)
    (hcount : t.columns.length < 2 ^ 32) {s : IntactSegment} (hof : t.SegmentOf s) :
    openSegment layout (w.finishFile layout) = .ok w.finish := by
  have hcalls : ∀ call ∈ t.calls, call.WellFormed := by
    intro call hcall
    obtain ⟨c, hc, rfl⟩ := List.mem_map.mp hcall
    have hne : s.columns ≠ [] := by
      rw [hof.columns]
      exact List.ne_nil_of_mem (List.mem_map_of_mem hc)
    have hlen : c.values.length = s.numRows :=
      (t.equalLength c hc).trans (hof.numRows (List.ne_nil_of_mem hc)).symm
    have hsmall := IntactSegment.numRows_lt_of_ne_nil hne
    have hflags := c.flagged
    exact ⟨by omega, by omega⟩
  have hstorable : w.Storable := SegmentWriter.storable_run hcalls
    ⟨by decide, by decide, fun c hc => (List.not_mem_nil hc).elim⟩ hrun
  refine SegmentWriter.open_finishFile layout (SegmentWriter.finish_storable hstorable ?_)
  exact (WrittenBy.of_run hrun).columns.length_eq ▸ hcount

namespace ShownBy
variable {s : IntactSegment} (h : t.ShownBy s)
include h

theorem getElem?_columns {i : Nat} {c : IntegerColumn} (hc : t.columns[i]? = some c) :
    s.columns[i]? = some (.ofValues c.type c.values) := by
  rw [h.columns, readColumns, List.getElem?_map, hc]
  rfl

theorem hasColumns (hcolumns : t.HasColumns chain) : s.HasColumns chain := by
  intro leaf hleaf
  rw [h.columns, readColumns, List.length_map]
  exact hcolumns leaf hleaf

theorem isInteger : ∀ col ∈ s.columns, col.type.isInteger = true := by
  rw [h.columns]
  intro col hcol
  obtain ⟨c, -, rfl⟩ := List.mem_map.mp hcol
  exact c.integer

theorem representable (hrep : t.Representable chain) : s.Representable chain := by
  intro leaf hleaf col hcol
  rw [h.columns, readColumns, List.getElem?_map] at hcol
  obtain ⟨c, hc, rfl⟩ := Option.map_eq_some_iff.mp hcol
  exact hrep leaf hleaf c hc

/-- The segment shows the numbers of the table. -/
theorem row_eq (r : Nat) : s.row r = t.value r := by
  funext c
  unfold IntactSegment.row IntactSegment.cell value
  rw [h.columns, readColumns, List.getElem?_map]
  cases hc : t.columns[c]? with
  | none => rfl
  | some col => exact Native.toInt_toInt64 col.integer _

theorem matching_eq (hne : t.columns ≠ []) (chain : Chain) : s.matching chain = t.matching chain := by
  rw [IntactSegment.matching, matching, h.numRows hne]
  exact List.filter_congr fun r _ => by rw [h.row_eq]

/-- What a scan of the segment delivers, by its checks, said of the table. -/
theorem scan_checks (build : Build) (hcolumns : t.HasColumns chain) (hnots : chain.headNots = 0)
    (hrep : t.Representable chain) (context : ScanContext) (hpos : 1 ≤ context.blockSize)
    (hsize : context.blockSize ≤ kScanBlockSize) {zone : Nat → Bool} {bloom : Bool}
    (hchecks : Checks (s.scanner context) chain.predicate zone bloom) :
    ∃ stats batches,
      scanSegment build s.segment context chain.predicate = .ok (stats, batches) ∧
      Delivers t.readColumns batches ((t.matching chain).filter (allowed context.blockSize zone bloom)) ∧
      stats.rowsReturned = deliveredRows batches := by
  have hhead : chain.head.column < t.columns.length := hcolumns _ List.mem_cons_self
  have hne : t.columns ≠ [] := List.ne_nil_of_length_pos (by omega)
  have hsne : s.columns ≠ [] := IntactSegment.columns_ne_nil (h.hasColumns hcolumns)
  have hselects := IntactSegment.selects_comparisons build context h.isInteger (h.hasColumns hcolumns) hnots
    (h.representable hrep)
  obtain ⟨batches, hscan, hdelivers⟩ := IntactSegment.scanSegment_spec hpos hsize hsne hchecks hselects
  have hrows : ((List.range s.numRows).filter fun r =>
      allowed context.blockSize zone bloom r && chain.eval (s.row r)) =
        (t.matching chain).filter (allowed context.blockSize zone bloom) := by
    rw [← h.matching_eq hne, IntactSegment.matching, List.filter_filter]
  rw [h.columns, hrows] at hdelivers
  refine ⟨_, batches, hscan, hdelivers, ?_⟩
  rw [hdelivers.count, ← hrows]
  simp only [tally, visited_all hpos hsize (IntactSegment.numRows_lt_of_ne_nil hsne), Nat.zero_add]

end ShownBy

namespace SegmentOf
variable {s : IntactSegment} (h : t.SegmentOf s)
include h

/-- Zone maps skip nothing, and a filter that is asked finds nothing. -/
theorem checks (hcolumns : t.HasColumns chain) (context : ScanContext) :
    Checks (s.scanner context) chain.predicate (fun _ => true) (!asksFilter context chain) := by
  have hcolumns := h.hasColumns hcolumns
  obtain ⟨col, hcol⟩ : ∃ col, s.columns[chain.head.column]? = some col :=
    ⟨_, List.getElem?_eq_getElem (hcolumns _ List.mem_cons_self)⟩
  have hunmapped : (s.zoneMaps.getD chain.head.column {}).entries = [] := by
    rw [List.getD_eq_getElem?_getD]
    cases hzm : s.zoneMaps[chain.head.column]? with
    | none => rfl
    | some zm => exact h.zoneMaps zm (List.mem_of_getElem? hzm)
  have hempty : s.bloomFilters.getD chain.head.column .empty = .empty := by
    rw [List.getD_eq_getElem?_getD]
    cases hbf : s.bloomFilters[chain.head.column]? with
    | none => rfl
    | some bf => exact h.bloomFilters bf (List.mem_of_getElem? hbf)
  refine ⟨fun block => ?_, ?_⟩
  · rw [IntactSegment.zoneMapAllows_chain hcol, IntactSegment.zoneMapKeeps_unmapped hunmapped, Bool.or_true]
  · rw [IntactSegment.bloomFilterAllows_chain hcol, IntactSegment.bloomFilterKeeps, hempty,
      BloomFilter.mightContain_empty]
    unfold asksFilter
    cases hbloom : context.enableBloomFilter with
    | false => rfl
    | true => by_cases hop : chain.head.op = .eq <;> simp [hop]

/-- What a scan of the segment delivers, said of the table. -/
theorem scan (build : Build) (hcolumns : t.HasColumns chain) (hnots : chain.headNots = 0)
    (hrep : t.Representable chain) (context : ScanContext) (hpos : 1 ≤ context.blockSize)
    (hsize : context.blockSize ≤ kScanBlockSize) :
    ∃ stats batches,
      scanSegment build s.segment context chain.predicate = .ok (stats, batches) ∧
      Delivers t.readColumns batches (if asksFilter context chain then [] else t.matching chain) ∧
      stats.rowsReturned = deliveredRows batches := by
  obtain ⟨stats, batches, hscan, hdelivers, hcount⟩ :=
    h.scan_checks build hcolumns hnots hrep context hpos hsize (h.checks hcolumns context)
  refine ⟨stats, batches, hscan, ?_, hcount⟩
  have hrows : (t.matching chain).filter (allowed context.blockSize (fun _ => true) (!asksFilter context chain)) =
      if asksFilter context chain then [] else t.matching chain := by
    split
    · next hasks => simp [allowed, hasks]
    · next hasks => simp [allowed, hasks]
  rwa [← hrows]

end SegmentOf

/-! ### The table, its file and its scan -/

/-- **A table that was written, opened and scanned delivers the rows on which a chain of
comparisons is true, unless the scan asks a filter: then it delivers none.** -/
theorem file_scans (build : Build) (layout : MetaLayout) (t : IntegerTable) (hentries : t.EntriesFit)
    (hfit : t.ColumnsFit) (chain : Chain) (hcolumns : t.HasColumns chain) (hnots : chain.headNots = 0)
    (hrep : t.Representable chain) (context : ScanContext) (hpos : 1 ≤ context.blockSize)
    (hsize : context.blockSize ≤ kScanBlockSize) :
    ∃ w seg stats batches,
      SegmentWriter.run {} t.calls = .ok w ∧
      openSegment layout (w.finishFile layout) = .ok seg ∧
      scanSegment build seg context chain.predicate = .ok (stats, batches) ∧
      Delivers t.readColumns batches (if asksFilter context chain then [] else t.matching chain) ∧
      stats.rowsReturned = deliveredRows batches := by
  obtain ⟨w, s, hrun, hs, hof⟩ := exists_segmentOf hentries hfit
  obtain ⟨stats, batches, hscan, hdelivers, hcount⟩ := hof.scan build hcolumns hnots hrep context hpos hsize
  exact ⟨w, w.finish, stats, batches, hrun, open_file layout hrun hentries.offsets.count hof, hs ▸ hscan, hdelivers, hcount⟩

/-- The first column less than 3, or the second equal to 4. -/
def fittingChain : Chain := {head := ⟨.lt, .int32, 0, 3⟩, tail := [(.or, ⟨.eq, .int64, 1, 4⟩, 0)]}

theorem fitting_file_scans :
    ∃ w seg stats batches,
      SegmentWriter.run {} fitting.calls = .ok w ∧
      openSegment .lp64 (w.finishFile .lp64) = .ok seg ∧
      scanSegment .avx512 seg {blockSize := 2} fittingChain.predicate = .ok (stats, batches) ∧
      Delivers fitting.readColumns batches
        (if asksFilter {blockSize := 2} fittingChain then [] else fitting.matching fittingChain) ∧
      stats.rowsReturned = deliveredRows batches := by
  refine file_scans .avx512 .lp64 fitting fitting_entriesFit ?_ fittingChain ?_ rfl ?_ _ (by decide) (by decide)
  · intro c hc
    simp only [fitting, List.mem_cons, List.not_mem_nil, or_false] at hc
    rcases hc with rfl | rfl | rfl
    · exact .inr trivial
    · exact .inr trivial
    · exact .inr (by decide +kernel)
  · intro leaf hleaf
    simp only [fittingChain, Chain.leaves, List.map_cons, List.map_nil, List.mem_cons, List.not_mem_nil,
      or_false] at hleaf
    rcases hleaf with rfl | rfl <;> decide
  · intro leaf hleaf c hc
    simp only [fittingChain, Chain.leaves, List.map_cons, List.map_nil, List.mem_cons, List.not_mem_nil,
      or_false] at hleaf
    rcases hleaf with rfl | rfl
    · cases hc
      exact ⟨3, by decide⟩
    · cases hc
      exact ⟨4, by decide⟩

end IntegerTable

end ColumnarStore
