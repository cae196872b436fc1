import ColumnarStore.Predicate.MixedChain
import ColumnarStore.Scanner.FastPath
import ColumnarStore.Segment.Tables

/-! Null flags and null tests.

`AddColumn` takes a null flag for every value and uses it for the statistics alone: no flag
is written. A null test then asks whether the value is zero. So a scan for nulls finds the
rows that were flagged exactly when the flagged values of the column are its zeros
(`nulls_survive_iff`). -/
namespace ColumnarStore
open Foundation Blocks Encoding Predicates Scanner

/-! ### Scans for nulls -/

namespace IntactSegment
variable {s : IntactSegment} {build : Build} {context : ScanContext} {c : Nat}

/-- A null test has no constant: the interpreter decides it, by the value 0. -/
theorem selects_null (hc : c < s.columns.length) :
    Selects build s (s.scanner context) (Predicates.build [.null c]) fun r => decide (s.row r c = 0) := by
  refine selects_interpreted build (.inr Nat.zero_ne_one) fun r _ prior => ?_
  have h : Reaches (Predicates.build [.null c]).program (s.rowCells r) 0
      (Predicates.build [.null c]).program (holding (decide (s.row r c = 0))) :=
    Reaches.null (p := {}) reaches_nil c (loadCell_eq rfl (shows_rowCells hc r))
  exact ⟨_, h.returns prior⟩

theorem selects_notNull (hc : c < s.columns.length) :
    Selects build s (s.scanner context) (Predicates.build [.notNull c]) fun r => decide (s.row r c ≠ 0) := by
  refine selects_interpreted build (.inr Nat.zero_ne_one) fun r _ prior => ?_
  have h : Reaches (Predicates.build [.notNull c]).program (s.rowCells r) 0
      (Predicates.build [.notNull c]).program (holding (decide (s.row r c ≠ 0))) :=
    Reaches.notNull (p := {}) reaches_nil c (loadCell_eq rfl (shows_rowCells hc r))
  exact ⟨_, h.returns prior⟩

end IntactSegment

namespace IntegerTable

/-- Every column is of type `Int32` and plain. -/
def PlainInt32 (t : IntegerTable) : Prop := ∀ c ∈ t.columns, c.type = .int32 ∧ c.encoding = .plain

/-- The rows of a column whose flag is as given. -/
def flagged (t : IntegerTable) (c : IntegerColumn) (flag : Bool) : List Nat :=
  (List.range t.rows).filter fun r => c.nulls.getD r false == flag

theorem mem_flagged {t : IntegerTable} {c : IntegerColumn} {flag : Bool} {r : Nat} :
    r ∈ t.flagged c flag ↔ r < t.rows ∧ c.nulls.getD r false = flag := by
  rw [flagged, List.mem_filter, List.mem_range, beq_iff_eq]

/-- A scan of the written segment delivers the given rows. -/
def ScanDelivers (t : IntegerTable) (build : Build) (context : ScanContext) (predicate : Predicate)
    (rows : List Nat) : Prop :=
  ∃ seg stats batches, writeSegment t.calls = .ok seg ∧
    scanSegment build seg context predicate = .ok (stats, batches) ∧ Delivers t.readColumns batches rows

/-- A scan for nulls finds the flagged rows, and one for the others the others. -/
def NullsSurvive (t : IntegerTable) (build : Build) (context : ScanContext) (i : Nat) (c : IntegerColumn) :
    Prop :=
  t.ScanDelivers build context (Predicates.build [.null i]) (t.flagged c true) ∧
    t.ScanDelivers build context (Predicates.build [.notNull i]) (t.flagged c false)

section Scans
variable {t : IntegerTable} {build : Build} {context : ScanContext} {i : Nat} {c : IntegerColumn}

/-- What the two scans do deliver: the zeros and the other values. -/
theorem scan_zeros (hplain : t.PlainInt32) (hentries : t.EntriesFit) (hc : t.columns[i]? = some c)
    (hpos : 1 ≤ context.blockSize) (hsize : context.blockSize ≤ kScanBlockSize)
    (hzone : context.enableZoneMapPruning = false) (hbloom : context.enableBloomFilter = false) :
    t.ScanDelivers build context (Predicates.build [.null i])
        ((List.range t.rows).filter fun r => decide (c.values.getD r 0 = 0)) ∧
      t.ScanDelivers build context (Predicates.build [.notNull i])
        ((List.range t.rows).filter fun r => decide (c.values.getD r 0 ≠ 0)) := by
  have hfit : t.ColumnsFit := by
    intro c hc
    rw [(hplain c hc).2]
    exact .inr trivial
  obtain ⟨w, s, hrun, hs, hof⟩ := exists_segmentOf hentries hfit
  have hwrite : writeSegment t.calls = .ok s.segment := by
    rw [writeSegment, hrun, hs]
    rfl
  have hne : t.columns ≠ [] := List.ne_nil_of_mem (List.mem_of_getElem? hc)
  have hrows := hof.numRows hne
  have hcol : s.columns[i]? = some (.ofValues c.type c.values) := by
    rw [hof.columns, readColumns, List.getElem?_map, hc]
    rfl
  have hlt : i < s.columns.length := (List.getElem?_eq_some_iff.mp hcol).1
  have hzero : ∀ r, s.row r i = 0 ↔ c.values.getD r 0 = 0 := by
    intro r
    rw [IntactSegment.row, IntactSegment.cell_eq hcol]
    show (Native.toInt64 c.type (c.values.getD r 0)).toInt = 0 ↔ _
    rw [Native.toInt_toInt64 c.integer]
    simp [← BitVec.toInt_inj]
  have hdelivers : ∀ predicate (keep : Nat → Bool), Selects build s (s.scanner context) predicate keep →
      t.ScanDelivers build context predicate ((List.range t.rows).filter keep) := by
    intro predicate keep hselects
    obtain ⟨stats, batches, hscan, hdelivers, -⟩ :=
      IntactSegment.scan_unpruned context hpos hsize hzone hbloom (List.ne_nil_of_mem (List.mem_of_getElem? hcol))
        hselects
    rw [hrows, hof.columns] at hdelivers
    exact ⟨s.segment, stats, batches, hwrite, hscan, hdelivers⟩
  have hnull := hdelivers _ _ (IntactSegment.selects_null hlt)
  have hnotNull := hdelivers _ _ (IntactSegment.selects_notNull hlt)
  simp only [ne_eq, hzero] at hnull hnotNull
  exact ⟨hnull, hnotNull⟩

/-- A scan delivers one list of rows: two lists it delivers have the same values. -/
theorem ScanDelivers.same_values {predicate : Predicate} {rows rows' : List Nat}
    (h : t.ScanDelivers build context predicate rows) (h' : t.ScanDelivers build context predicate rows')
    (hc : t.columns[i]? = some c) :
    (rows.map fun r => c.values.getD r 0) = rows'.map fun r => c.values.getD r 0 := by
  obtain ⟨seg, stats, batches, hwrite, hscan, hdelivers⟩ := h
  obtain ⟨seg', stats', batches', hwrite', hscan', hdelivers'⟩ := h'
  cases hwrite.symm.trans hwrite'
  cases hscan.symm.trans hscan'
  have hcol : t.readColumns[i]? = some (.ofValues c.type c.values) := by
    rw [readColumns, List.getElem?_map, hc]
    rfl
  exact hdelivers.same_values hdelivers' hcol

/-- **Null flags survive to a scan exactly when the flagged values of the column are its
zeros.** -/
theorem nulls_survive_iff (build : Build) (t : IntegerTable) (hplain : t.PlainInt32) (hentries : t.EntriesFit)
    (i : Nat) (c : IntegerColumn) (hc : t.columns[i]? = some c) (context : ScanContext)
    (hpos : 1 ≤ context.blockSize) (hsize : context.blockSize ≤ kScanBlockSize)
    (hzone : context.enableZoneMapPruning = false) (hbloom : context.enableBloomFilter = false) :
    t.NullsSurvive build context i c ↔
      ∀ r < t.rows, (c.nulls.getD r false = true ↔ c.values.getD r 0 = 0) := by
  have hzeros : _ ∧ t.ScanDelivers build context _ _ := scan_zeros hplain hentries hc hpos hsize hzone hbloom
  obtain ⟨hnull, hnotNull⟩ := hzeros
  constructor
  · intro h
    obtain ⟨hflagged, -⟩ := h
    have hsame := hflagged.same_values hnull hc
    -- A flagged value is among the zeros, and there are as many of the one as of the other.
    have hsub : ∀ r ∈ t.flagged c true, c.values.getD r 0 = 0 := by
      intro r hr
      have hmem := List.mem_map_of_mem (f := fun r => c.values.getD r 0) hr
      rw [hsame] at hmem
      obtain ⟨r', hr', heq⟩ := List.mem_map.mp hmem
      exact heq.symm.trans (of_decide_eq_true (List.mem_filter.mp hr').2)
    have hfilter : (((List.range t.rows).filter fun r => decide (c.values.getD r 0 = 0)).filter
        fun r => c.nulls.getD r false == true) = t.flagged c true := by
      rw [List.filter_filter]
      refine List.filter_congr fun r hr => ?_
      cases hflag : c.nulls.getD r false with
      | false => rfl
      | true => simpa using hsub r (mem_flagged.mpr ⟨List.mem_range.mp hr, hflag⟩)
    have hlen := congrArg List.length hsame
    rw [List.length_map, List.length_map, ← hfilter] at hlen
    have hall := List.length_filter_eq_length_iff.mp hlen
    intro r hr
    constructor
    · exact fun hflag => hsub r (mem_flagged.mpr ⟨hr, hflag⟩)
    · intro hzero
      exact beq_iff_eq.mp (hall r (List.mem_filter.mpr ⟨List.mem_range.mpr hr, decide_eq_true hzero⟩))
  · intro hflags
    have htrue : t.flagged c true = (List.range t.rows).filter fun r => decide (c.values.getD r 0 = 0) := by
      refine List.filter_congr fun r hr => ?_
      rw [Bool.eq_iff_iff]
      simpa using hflags r (List.mem_range.mp hr)
    have hfalse : t.flagged c false = (List.range t.rows).filter fun r => decide (c.values.getD r 0 ≠ 0) := by
      refine List.filter_congr fun r hr => ?_
      rw [Bool.eq_iff_iff]
      simpa using not_congr (hflags r (List.mem_range.mp hr))
    rw [NullsSurvive, htrue, hfalse]
    exact ⟨hnull, hnotNull⟩

end Scans

/-- The values 7 and 0, one of them null. -/
def sevenZero (nulls : List Bool) (h : nulls.length = 2) : IntegerColumn :=
  {type := .int32, integer := DataType.isInteger_int32, encoding := .plain, codec := hasIntegerCodec_plain
   values := [7, 0], nulls, flagged := h}

def sevenZeroTable (nulls : List Bool) (h : nulls.length = 2) : IntegerTable :=
  {columns := [sevenZero nulls h], rows := 2, equalLength := by simp [sevenZero]}

theorem sevenZeroTable_plainInt32 (nulls : List Bool) (h : nulls.length = 2) :
    PlainInt32 (sevenZeroTable nulls h) := by
  simp [PlainInt32, sevenZeroTable, sevenZero]

/-- The zero is the null. -/
theorem zero_flagged_survives :
    NullsSurvive (sevenZeroTable [false, true] rfl) .avx512
        {enableZoneMapPruning := false, enableBloomFilter := false} 0 (sevenZero [false, true] rfl) ↔
      ∀ r < 2, ([false, true].getD r false = true ↔ ([7, 0] : List (Native .int32)).getD r 0 = 0) :=
  nulls_survive_iff .avx512 (sevenZeroTable [false, true] rfl) (sevenZeroTable_plainInt32 _ rfl)
    (.of_start_lt (by decide +kernel)) 0 (sevenZero [false, true] rfl) rfl
    {enableZoneMapPruning := false, enableBloomFilter := false} (by decide) (by decide) rfl rfl

/-- The 7 is the null, and the zero is found in its place. -/
theorem seven_flagged_lost :
    ¬ NullsSurvive (sevenZeroTable [true, false] rfl) .scalar
      {enableZoneMapPruning := false, enableBloomFilter := false} 0 (sevenZero [true, false] rfl) := by
  have hc : (sevenZeroTable [true, false] rfl).columns[0]? = some (sevenZero [true, false] rfl) := rfl
  intro h
  obtain ⟨hnull, -⟩ := h
  have hzeros : ScanDelivers (sevenZeroTable [true, false] rfl) .scalar
      {enableZoneMapPruning := false, enableBloomFilter := false} _ _ ∧ _ :=
    scan_zeros (sevenZeroTable_plainInt32 _ rfl) (.of_start_lt (by decide +kernel)) hc (by decide) (by decide) rfl rfl
  exact absurd (hnull.same_values hzeros.1 hc) (by decide)

end IntegerTable

end ColumnarStore
