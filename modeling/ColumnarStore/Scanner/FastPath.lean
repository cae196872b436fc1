import ColumnarStore.Predicate.SingleLeaf
import ColumnarStore.Scanner.Unpruned

/-! The path that skips the interpreter.

A scan whose predicate counts as a single comparison lets a kernel find the rows and never
runs the program. The kernel's rows are those of the interpreter exactly when the program
has no `Not` that matters (`fastPath_agrees_iff`). -/
namespace ColumnarStore
open Foundation Blocks Predicates Scanner

/-- What a column hands out tells its values in the rows. -/
theorem Scanner.Delivers.same_values {columns : List Column} {batches : List Batch} {rows rows' : List Nat}
    (h : Delivers columns batches rows) (h' : Delivers columns batches rows') {c : Nat} {col : Column}
    (hcol : columns[c]? = some col) :
    (rows.map fun r => col.vec.data.getD r 0) = rows'.map fun r => col.vec.data.getD r 0 :=
  storeWords_injective col.type.typeSize_pos ((h.values c col hcol).symm.trans (h'.values c col hcol))

namespace IntactSegment
variable {s : IntactSegment}

/-- The arrays of the columns, widened, as `EvaluateRow` reads them. -/
def memory (s : IntactSegment) : Columns := s.columns.map fun col => col.vec.data.map (Native.toInt64 col.type)

theorem shows_memory {c r : Nat} {col : Column} (hcol : s.columns[c]? = some col) (hr : r < s.numRows) :
    Shows s.memory r (s.cell r) c := by
  refine ⟨col.vec.data.map (Native.toInt64 col.type), by rw [memory, List.getElem?_map, hcol]; rfl, ?_⟩
  have hin : r < col.vec.data.length := by rw [length_data hcol]; exact hr
  rw [List.getElem?_map, List.getElem?_eq_getElem hin, cell_eq hcol, List.getD_eq_getElem _ _ hin]
  rfl

/-- The interpreter returns a truth value on every row, and the scan delivers the rows on
which it is true. -/
def AgreesWithInterpreter (s : IntactSegment) (build : Build) (context : ScanContext) (predicate : Predicate) :
    Prop :=
  ∃ stats batches keep, scanSegment build s.segment context predicate = .ok (stats, batches) ∧
    (∀ r < s.numRows, ∀ prior, ∃ interp,
      evaluateRow predicate.program prior s.memory r = .ok (keep r, interp)) ∧
    Delivers s.columns batches ((List.range s.numRows).filter keep)

section Agreement
variable {build : Build} {context : ScanContext} {col : Column} {f : SingleLeaf}

/-- A scan with a single comparison delivers the rows of the comparison. -/
theorem scan_singleLeaf (hcol : s.columns[f.leaf.column]? = some col) (hint : col.type.isInteger = true)
    (hvalue : ∃ v : Native col.type, v.toInt = f.leaf.constant.toInt) (hpos : 1 ≤ context.blockSize)
    (hsize : context.blockSize ≤ kScanBlockSize) (hzone : context.enableZoneMapPruning = false)
    (hbloom : context.enableBloomFilter = false) :
    ∃ stats batches, scanSegment build s.segment context f.predicate = .ok (stats, batches) ∧
      Delivers s.columns batches ((List.range s.numRows).filter fun r => f.leaf.holds (s.row r)) := by
  obtain ⟨hpreds, hcolumns, hconstants, -⟩ := f.predicate_eq
  have hselects : Selects build s (s.scanner context) f.predicate _ :=
    selects_comparison hcol hint build hpreds hcolumns hconstants
  have hcut := toInt_cut hint hvalue
  rw [Leaf.cut] at hcut
  rw [hcut] at hselects
  have hne : s.columns ≠ [] := List.ne_nil_of_mem (List.mem_of_getElem? hcol)
  obtain ⟨stats, batches, hscan, hdelivers, -⟩ := scan_unpruned context hpos hsize hzone hbloom hne hselects
  exact ⟨stats, batches, hscan, hdelivers⟩

/-- No rows are delivered both as those of the leaf and as the others. -/
theorem not_delivers_both (hcol : s.columns[f.leaf.column]? = some col) {batches : List Batch}
    (h : Delivers s.columns batches ((List.range s.numRows).filter fun r => f.leaf.holds (s.row r)))
    (h' : Delivers s.columns batches ((List.range s.numRows).filter fun r => !f.leaf.holds (s.row r))) :
    s.numRows = 0 := by
  have hsame := h.same_values h' hcol
  have hmap : ∀ rows : List Nat, (rows.map fun r => f.leaf.holds (s.row r)) =
      (rows.map fun r => col.vec.data.getD r 0).map fun v =>
        f.leaf.op.holds (v.toInt64 col.type).toInt f.leaf.constant.toInt := by
    intro rows
    rw [List.map_map]
    refine List.map_congr_left fun r _ => ?_
    show f.leaf.op.holds (s.cell r f.leaf.column).toInt _ = _
    rw [cell_eq hcol]
    rfl
  have hholds : ((List.range s.numRows).filter fun r => f.leaf.holds (s.row r)).map
        (fun r => f.leaf.holds (s.row r)) =
      ((List.range s.numRows).filter fun r => !f.leaf.holds (s.row r)).map fun r => f.leaf.holds (s.row r) := by
    rw [hmap, hmap, hsame]
  -- The one list of truth values is all true, the other all false.
  have hnone : ((List.range s.numRows).filter fun r => f.leaf.holds (s.row r)) = [] := by
    refine List.eq_nil_iff_forall_not_mem.mpr fun r hr => ?_
    have hmem := List.mem_map_of_mem (f := fun r => f.leaf.holds (s.row r)) hr
    rw [hholds] at hmem
    obtain ⟨r', hr', hsame'⟩ := List.mem_map.mp hmem
    have htrue := (List.mem_filter.mp hr).2
    have hfalse := (List.mem_filter.mp hr').2
    rw [hsame', htrue] at hfalse
    cases hfalse
  rw [hnone] at hholds
  have hrest := List.map_eq_nil_iff.mp hholds.symm
  have hsplit := List.length_eq_length_filter_add (fun r => f.leaf.holds (s.row r)) (l := List.range s.numRows)
  rw [hnone, hrest, List.length_range] at hsplit
  exact hsplit

/-- The scan agrees with the interpreter where there are no rows, and where no `Not` comes
before the leaf and an even number behind it. -/
theorem agrees_iff (hcol : s.columns[f.leaf.column]? = some col) (hint : col.type.isInteger = true)
    (hvalue : ∃ v : Native col.type, v.toInt = f.leaf.constant.toInt) (hpos : 1 ≤ context.blockSize)
    (hsize : context.blockSize ≤ kScanBlockSize) (hzone : context.enableZoneMapPruning = false)
    (hbloom : context.enableBloomFilter = false) :
    s.AgreesWithInterpreter build context f.predicate ↔
      s.numRows = 0 ∨ .not ∉ f.before ∧ Even (f.after.count .not) := by
  obtain ⟨stats, batches, hscan, hdelivers⟩ :
      ∃ stats batches, scanSegment build s.segment context f.predicate = .ok (stats, batches) ∧
        Delivers s.columns batches ((List.range s.numRows).filter fun r => f.leaf.holds (s.row r)) :=
    scan_singleLeaf hcol hint hvalue hpos hsize hzone hbloom
  constructor
  · intro h
    obtain ⟨stats', batches', keep, hscan', hrows, hdelivers'⟩ := h
    cases hscan.symm.trans hscan'
    refine or_iff_not_imp_left.mpr fun hne => ?_
    have hnot : .not ∉ f.before := by
      intro hnot
      obtain ⟨interp, heval⟩ := hrows 0 (by omega) {}
      rw [f.evaluateRow_not hnot] at heval
      cases heval
    refine ⟨hnot, ?_⟩
    by_contra hodd
    have hkeep : ∀ r ∈ List.range s.numRows, keep r = !f.leaf.holds (s.row r) := by
      intro r hr
      have hr := List.mem_range.mp hr
      obtain ⟨interp, heval⟩ := hrows r hr {}
      obtain ⟨interp', hvalue⟩ := f.evaluateRow_value hnot (shows_memory hcol hr) {}
      rw [Bool.involutive_not.iterate_odd (Nat.not_even_iff_odd.mp hodd)] at hvalue
      exact congrArg Prod.fst (Except.ok.inj (heval.symm.trans hvalue))
    rw [List.filter_congr hkeep] at hdelivers'
    exact hne (not_delivers_both hcol hdelivers hdelivers')
  · intro hor
    refine ⟨stats, batches, _, hscan, fun r hr prior => ?_, hdelivers⟩
    obtain hzero | ⟨hnot, heven⟩ := hor
    · omega
    · obtain ⟨interp, hvalue⟩ := f.evaluateRow_value hnot (shows_memory hcol hr) prior
      rw [Bool.involutive_not.iterate_even heven] at hvalue
      exact ⟨interp, hvalue⟩

end Agreement

/-- **A scan on the fast path delivers the rows on which the interpreter returns true
exactly when the segment has no rows, or the program has no `Not` before its leaf and an
even number behind it.** -/
theorem fastPath_agrees_iff (build : Build) (s : IntactSegment) (calls : List BuilderCall)
    (pred : PredicateType) (column : Nat) (constant : Int64Bits)
    (hfast : (Predicates.build calls).IsFast pred column constant) (col : Column)
    (hcol : s.columns[column]? = some col) (hint : col.type.isInteger = true) (value : Native col.type)
    (hvalue : constant = value.toInt64 col.type) (context : ScanContext) (hpos : 1 ≤ context.blockSize)
    (hsize : context.blockSize ≤ kScanBlockSize) (hzone : context.enableZoneMapPruning = false)
    (hbloom : context.enableBloomFilter = false) :
    ∃ f : SingleLeaf, f.calls = calls ∧
      (s.AgreesWithInterpreter build context (Predicates.build calls) ↔
        s.numRows = 0 ∨ .not ∉ f.before ∧ Even (f.after.count .not)) := by
  obtain ⟨f, rfl⟩ := exists_singleLeaf hfast
  obtain ⟨-, hcolumns, hconstants, -⟩ := f.predicate_eq
  have hcolumn : f.leaf.column = column := List.singleton_inj.mp (hcolumns.symm.trans hfast.columnIndices)
  have hconstant : f.leaf.constant = constant := List.singleton_inj.mp (hconstants.symm.trans hfast.constants)
  refine ⟨f, rfl, agrees_iff (hcolumn ▸ hcol) hint ⟨value, ?_⟩ hpos hsize hzone hbloom⟩
  rw [hconstant, hvalue, Native.toInt_toInt64 hint]

/-- Two `Not`s behind the leaf, and a connective before it. -/
theorem doubleNegation_agrees :
    ∃ f : SingleLeaf, f.calls = [.and, .lt .int64 1 5, .not, .not] ∧
      (sample.AgreesWithInterpreter .avx512
          {blockSize := 2, enableZoneMapPruning := false, enableBloomFilter := false}
          (Predicates.build [.and, .lt .int64 1 5, .not, .not]) ↔
        sample.numRows = 0 ∨ .not ∉ f.before ∧ Even (f.after.count .not)) :=
  fastPath_agrees_iff .avx512 sample [.and, .lt .int64 1 5, .not, .not] .lessThan 1 5 ⟨rfl, rfl, rfl⟩
    (.ofValues .int64 [2, 7, 1, 8, 2]) rfl rfl (5 : BitVec 64) (by decide)
    {blockSize := 2, enableZoneMapPruning := false, enableBloomFilter := false} (by decide) (by decide) rfl rfl

/-- Below 5, negated. -/
def negated : SingleLeaf := {leaf := ⟨.lt, .int64, 1, 5⟩, after := [.not]}

/-- One `Not` is ignored: the rows below 5 are delivered when the others are asked for. -/
theorem negation_disagrees :
    ¬ sample.AgreesWithInterpreter .scalar {enableZoneMapPruning := false, enableBloomFilter := false}
      negated.predicate := by
  have hcol : sample.columns[negated.leaf.column]? = some (.ofValues .int64 [2, 7, 1, 8, 2]) := rfl
  have hvalue : ∃ v : Native .int64, v.toInt = negated.leaf.constant.toInt := ⟨5, by decide⟩
  refine mt (agrees_iff hcol rfl hvalue (by decide) (by decide) rfl rfl).mp ?_
  intro h
  rcases h with hempty | ⟨-, heven⟩
  · exact absurd hempty (by decide +kernel)
  · exact absurd heven (by decide)

end IntactSegment

end ColumnarStore
