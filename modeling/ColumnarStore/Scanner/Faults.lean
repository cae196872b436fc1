import ColumnarStore.Scanner.Unpruned
import ColumnarStore.Predicate.Shapes

/-! Which predicates a scan can run.

Nothing checks a predicate before a scan, and the interpreter meets what is wrong with one on the
first row. As values do not decide how a run ends, it is wrong on every row or on none: a scan by the
interpreter faults as the run over shapes does if there is a row at all, and else it delivers the rows
the interpreter accepts (`scan_built`). -/
namespace ColumnarStore
open Foundation Blocks Predicates Scanner

namespace IntactSegment
variable {s : IntactSegment} {context : ScanContext}

theorem length_rowCells (s : IntactSegment) (r : Nat) : (s.rowCells r).length = s.columns.length := by
  rw [rowCells, List.length_map, List.length_zipIdx]

/-- The interpreter's run on a row, seen through shapes. -/
theorem evaluateRow_rowCells (s : IntactSegment) (p : BytecodeProgram) (interp : EvalState) (r : Nat) :
    (fun result => result.2.shape) <$> evaluateRow p interp (s.rowCells r) 0 = p.verify s.columns.length := by
  rw [← s.length_rowCells r]
  refine evaluateRow_shape (fun data hdata => ?_) interp
  obtain ⟨entry, -, rfl⟩ := List.mem_map.mp hdata
  exact Nat.one_pos

/-- The interpreter returns true on row `r`. -/
def accepts (s : IntactSegment) (p : BytecodeProgram) (r : Nat) : Bool :=
  (evaluateRow p {} (s.rowCells r) 0).toOption.any Prod.fst

/-- A block of rows on which the interpreter faults. -/
theorem matchRows_eq_error (build : Build) {predicate : Predicate} {e : Fault}
    (hslow : predicate.columnPredicates.length ≠ 1 ∨ predicate.program.constants.length ≠ 1)
    (hfault : predicate.program.verify s.columns.length = .error e) (interp : EvalState) {offset count : Nat}
    (hpos : 0 < count) (hcount : count ≤ kScanBlockSize) (hrows : offset + count ≤ s.numRows) :
    (s.scanner context).matchRows build predicate s.columns interp offset count = .error e := by
  have hrow : ∀ interp, ∀ i ∈ List.range count,
      (s.scanner context).evaluate predicate s.columns offset interp i = .error e := by
    intro interp i hi
    have hi := List.mem_range.mp hi
    rw [evaluate_eq (by omega)]
    exact map_eq_error.mp ((s.evaluateRow_rowCells predicate.program interp (offset + i)).trans hfault)
  unfold SegmentScanner.matchRows
  split
  · next hpreds _ hconsts => simp [hpreds, hconsts] at hslow
  · rw [survivors_reset hcount, bind_ok]
    exact compact_eq_error (List.ne_nil_of_length_pos (by rwa [List.length_range])) hrow .outOfBounds interp

/-- The first block of a segment with rows is enough. -/
theorem scan_eq_error (build : Build) {predicate : Predicate} {e : Fault} (hpos : 0 < context.blockSize)
    (hsize : context.blockSize ≤ kScanBlockSize) (hzone : context.enableZoneMapPruning = false)
    (hbloom : context.enableBloomFilter = false) (hcolumns : s.columns ≠ [])
    (hslow : predicate.columnPredicates.length ≠ 1 ∨ predicate.program.constants.length ≠ 1)
    (hfault : predicate.program.verify s.columns.length = .error e) (hrows : s.numRows ≠ 0) :
    scanSegment build s.segment context predicate = .error e := by
  have hchecks := checks_off (s := s) hzone hbloom predicate
  have hfirst : ∀ p, (s.scanner context).scanBlock build predicate s.columns p 0 = .error e := by
    intro p
    unfold SegmentScanner.scanBlock
    rw [hchecks.zoneMap, hchecks.bloomFilter]
    show (SegmentScanner.deliverBlock _ _ _ _ _ (0 * context.blockSize) (min context.blockSize (s.numRows - _))) = _
    unfold SegmentScanner.deliverBlock
    rw [matchRows_eq_error build hslow hfault _ (by omega) (by omega) (by omega), bind_error]
  have hblocks : 0 < ZoneMap.blocksFor context.blockSize s.numRows := by
    have hsmall : kScanBlockSize = 8192 := rfl
    have hlt := numRows_lt_of_ne_nil hcolumns
    rw [ZoneMap.blocksFor, Nat.mod_eq_of_lt (by omega)]
    exact Nat.div_pos (by omega) hpos
  have hloop : (List.range (ZoneMap.blocksFor context.blockSize s.numRows)).foldlM
      ((s.scanner context).scanBlock build predicate s.columns) {stats := (s.scanner context).stats} = .error e :=
    foldlM_range_eq_error hblocks (fun i hi => absurd hi (Nat.not_lt_zero i)) hfirst _
  rw [scanSegment, new_eq, bind_ok, SegmentScanner.scan]
  show ((if context.blockSize = 0 then _ else _) >>= _ : Outcome _) = _
  rw [if_neg hpos.ne']
  show (((List.range s.segment.numColumns).mapM s.segment.getColumn >>= _) >>= _ : Outcome _) = _
  rw [s.columns_read, bind_ok]
  show ((List.foldlM _ _ (List.range (ZoneMap.blocksFor context.blockSize s.numRows)) >>= _) >>= _ : Outcome _) = _
  rw [hloop]
  rfl

/-- A program that passes the run over shapes has a result on every row. -/
theorem selects_verified (build : Build) {predicate : Predicate} {a : Shape}
    (hslow : predicate.columnPredicates.length ≠ 1 ∨ predicate.program.constants.length ≠ 1)
    (hverified : predicate.program.verify s.columns.length = .ok a) :
    Selects build s (s.scanner context) predicate (s.accepts predicate.program) := by
  refine selects_interpreted build hslow fun r _ interp => ?_
  have hshape := (s.evaluateRow_rowCells predicate.program interp r).trans hverified
  unfold accepts
  show ∃ interp', evaluateRow predicate.program interp (s.rowCells r) 0 =
    .ok ((evaluateRow predicate.program interp (s.rowCells r) 0).toOption.any Prod.fst, interp')
  cases heval : evaluateRow predicate.program interp (s.rowCells r) 0 with
  | error e =>
    rw [heval] at hshape
    exact absurd hshape nofun
  | ok result => exact ⟨result.2, rfl⟩

/-- **An unpruned scan with what any calls build, other than the one comparison that a kernel evaluates:
it pops the empty stack exactly if there is a row and a `Not` precedes the first leaf, it reads out of
bounds exactly if there is a row, no such `Not` and a leaf on a column that is not there, and in all other
cases it returns and delivers, in order, the rows the interpreter accepts.** -/
theorem scan_built (build : Build) (s : IntactSegment) (hcolumns : s.columns ≠ []) (calls : List BuilderCall)
    (hleaves : calls.countP BuilderCall.isLeaf ≤ 2 ^ 32)
    (hslow : (Predicates.build calls).columnPredicates.length ≠ 1 ∨
      (Predicates.build calls).program.constants.length ≠ 1)
    (context : ScanContext) (hpos : 1 ≤ context.blockSize) (hsize : context.blockSize ≤ kScanBlockSize)
    (hzone : context.enableZoneMapPruning = false) (hbloom : context.enableBloomFilter = false) :
    (scanSegment build s.segment context (Predicates.build calls) = .error .emptyStack ↔
        s.numRows ≠ 0 ∧ .not ∈ leading calls) ∧
      (scanSegment build s.segment context (Predicates.build calls) = .error .outOfBounds ↔
        s.numRows ≠ 0 ∧ .not ∉ leading calls ∧ ¬∀ call ∈ calls, call.Within s.columns.length) ∧
      (s.numRows = 0 ∨ (.not ∉ leading calls ∧ ∀ call ∈ calls, call.Within s.columns.length) →
        ∃ stats batches,
          scanSegment build s.segment context (Predicates.build calls) = .ok (stats, batches) ∧
          Delivers s.columns batches
            ((List.range s.numRows).filter (s.accepts (Predicates.build calls).program)) ∧
          stats.rowsReturned = deliveredRows batches ∧
          stats.rowsReturned + stats.rowsFiltered = s.numRows) := by
  have hreturns : s.numRows = 0 ∨ (.not ∉ leading calls ∧ ∀ call ∈ calls, call.Within s.columns.length) →
      ∃ stats batches,
        scanSegment build s.segment context (Predicates.build calls) = .ok (stats, batches) ∧
        Delivers s.columns batches ((List.range s.numRows).filter (s.accepts (Predicates.build calls).program)) ∧
        stats.rowsReturned = deliveredRows batches ∧ stats.rowsReturned + stats.rowsFiltered = s.numRows := by
    intro h
    refine scan_unpruned context hpos hsize hzone hbloom hcolumns ?_
    rcases h with hempty | hfine
    · refine selects_interpreted build hslow fun r hr => ?_
      omega
    · obtain ⟨a, hverified⟩ := (verify_build calls hleaves s.columns.length).2.2.mpr hfine
      exact selects_verified build hslow hverified
  have herror : ∀ e, (Predicates.build calls).program.verify s.columns.length = .error e → s.numRows ≠ 0 →
      scanSegment build s.segment context (Predicates.build calls) = .error e :=
    fun e => scan_eq_error build hpos hsize hzone hbloom hcolumns hslow
  obtain ⟨hstack, hbounds, -⟩ := verify_build calls hleaves s.columns.length
  refine ⟨⟨fun h => ?_, fun h => herror _ (hstack.mpr h.2) h.1⟩,
    ⟨fun h => ?_, fun h => herror _ (hbounds.mpr h.2) h.1⟩, hreturns⟩
  all_goals
    have hbad : ¬(s.numRows = 0 ∨ (.not ∉ leading calls ∧ ∀ call ∈ calls, call.Within s.columns.length)) := by
      intro hgood
      obtain ⟨stats, batches, hok, -⟩ := hreturns hgood
      exact absurd (h.symm.trans hok) nofun
    rw [not_or] at hbad
    refine ⟨hbad.1, ?_⟩
  · by_contra hnot
    have hfaults := herror _ (hbounds.mpr ⟨hnot, fun hall => hbad.2 ⟨hnot, hall⟩⟩) hbad.1
    exact absurd (h.symm.trans hfaults) nofun
  · have hnot : .not ∉ leading calls := by
      intro hnot
      exact absurd (h.symm.trans (herror _ (hstack.mpr hnot) hbad.1)) nofun
    exact ⟨hnot, fun hall => hbad.2 ⟨hnot, hall⟩⟩

/-- Of the three columns a caller thinks of, the sample has two. -/
theorem sample_scan_built :
    scanSegment .avx512 sample.segment (.unpruned 2)
      (Predicates.build [.gt .int32 0 1, .and, .not, .eq .int64 2 8]) = .error .outOfBounds :=
  (scan_built .avx512 sample (by decide) [.gt .int32 0 1, .and, .not, .eq .int64 2 8] (by decide) (by decide)
    (.unpruned 2) (by decide) (by decide) rfl rfl).2.1.mpr ⟨by decide +kernel, List.not_mem_nil, by decide⟩

end IntactSegment
end ColumnarStore
