import ColumnarStore.Predicate.CanMatch
import ColumnarStore.Scanner.Tables

/-! A table with indexes, from its file to a scan.

Zone maps and filters built over the columns of a table are added to the writer with the
columns, before, between or behind them. A scan in the blocks of the maps that is asked for
a conjunction then skips blocks, and none of the rows it skips is one on which the
conjunction is true (`indexed_file_scans`): what is delivered does not depend on the maps and
filters, except that an equality must not ask a filter that was never added, or for a negative
constant in 32 bits. -/
namespace ColumnarStore
open Foundation Encoding Predicates Scanner

namespace IntegerTable
variable {t : IntegerTable} {blockRows : Nat} {calls : List WriterCall} {chain : Chain}

/-! ### Writing a table with indexes -/

/-- The filter a caller builds over a column. -/
structure FilterOver (c : IntegerColumn) (bf : BloomFilter) (numBits numHashes : Nat) : Prop where
  built : (BloomFilter.ofSize numBits numHashes).addAll (c.values.map fun x => BloomFilter.key x) = .ok bf
  bits : 1 ≤ numBits
  words : numBits + 63 < 2 ^ 64
  hashes : numHashes < 2 ^ 64

/-- Calls that add the columns of the table, maps in blocks of `blockRows` rows and filters over them. -/
structure IndexedBy (t : IntegerTable) (blockRows : Nat) (calls : List WriterCall) : Prop where
  columns : addedColumns calls = t.columns.map IntegerColumn.added
  zoneMaps : ∀ i zm, WriterCall.addZoneMap i zm ∈ calls → ∃ c, t.columns[i]? = some c ∧
    ZoneMap.buildFromColumn {blockRows} c.type c.values none = .ok zm
  bloomFilters : ∀ i bf, WriterCall.addBloomFilter i bf ∈ calls → ∃ c numBits numHashes,
    t.columns[i]? = some c ∧ FilterOver c bf numBits numHashes

/-- What the equality asks for is in the filter of its column as the column has it. -/
structure FilterAnswers (t : IntegerTable) (calls : List WriterCall) (leaf : Leaf) : Prop where
  added : ∃ bf, WriterCall.addBloomFilter leaf.column bf ∈ calls
  keyed : ∀ c, t.columns[leaf.column]? = some c → c.type = .int64 ∨ 0 ≤ leaf.constant.toInt

/-- A value is padded to the key it is widened to, unless it is negative and short. -/
theorem key_eq_constant {c : IntegerColumn} {leaf : Leaf} {v : Native c.type} (hv : v.toInt = leaf.constant.toInt)
    (hkeyed : c.type = .int64 ∨ 0 ≤ leaf.constant.toInt) : BloomFilter.key v = leaf.constant := by
  have hint := c.integer
  have hconstant : leaf.constant = v.toInt64 c.type := by
    rw [← BitVec.toInt_inj, Native.toInt_toInt64 hint, hv]
  have hwide : v.toInt64 c.type = v.signExtend 64 := by
    generalize c.type = type at v hint
    cases type <;> first | rfl | cases hint
  rw [hconstant, hwide, BloomFilter.key]
  rcases hkeyed with htype | hnonneg
  · generalize c.type = type at v htype
    subst htype
    exact (BitVec.setWidth_eq _).trans (BitVec.signExtend_eq _).symm
  · refine (BitVec.signExtend_eq_setWidth_of_msb_false ?_).symm
    rw [BitVec.msb_eq_toInt, hv]
    exact decide_eq_false (not_lt.mpr hnonneg)

namespace IndexedBy
variable (h : t.IndexedBy blockRows calls)
include h

theorem mem_columns {type : DataType} {values : List (Native type)} {nulls : List Bool} {encoding : EncodingType}
    (hcall : WriterCall.addColumn type values nulls encoding ∈ calls) :
    ∃ c ∈ t.columns, WriterCall.addColumn type values nulls encoding = c.call := by
  have hadded : (⟨type, values, nulls, encoding⟩ : AddedColumn) ∈ addedColumns calls :=
    List.mem_filterMap.mpr ⟨_, hcall, rfl⟩
  rw [h.columns] at hadded
  obtain ⟨c, hc, heq⟩ := List.mem_map.mp hadded
  cases heq
  exact ⟨c, hc, rfl⟩

/-- No call faults. -/
theorem written (hfit : t.ColumnsFit) : ∃ w, SegmentWriter.run {} calls = .ok w := by
  refine SegmentWriter.run_ok (fun call hcall w => ?_) {}
  cases call with
  | addColumn type values nulls encoding =>
    obtain ⟨c, hc, heq⟩ := h.mem_columns hcall
    obtain ⟨bytes, hencode, -⟩ := hfit.restored hc
    rw [heq]
    exact c.apply_ok hencode w
  | setTimestamp ts => exact ⟨_, rfl⟩
  | addZoneMap i zm => exact ⟨_, rfl⟩
  | addBloomFilter i bf => exact ⟨_, rfl⟩

theorem addedColumn {i : Nat} {c : IntegerColumn} (hc : t.columns[i]? = some c) :
    (addedColumns calls)[i]? = some c.added := by
  rw [h.columns, List.getElem?_map, hc]
  rfl

/-- The filter of a column has words for its bits, whether it was added or not. -/
theorem bloomFilterOf_fits (i : Nat) :
    1 ≤ (bloomFilterOf calls i).numBits ∧ (bloomFilterOf calls i).numBits + 63 < 2 ^ 64 ∧
      (bloomFilterOf calls i).numHashes < 2 ^ 64 := by
  rcases bloomFilterOf_mem calls i with hnone | hcall
  · rw [hnone]
    decide
  · obtain ⟨c, numBits, numHashes, -, hover⟩ := h.bloomFilters i _ hcall
    obtain ⟨hbits, hhashes, -⟩ := BloomFilter.holds_addAll hover.built
    rw [hbits, hhashes]
    exact ⟨hover.bits, hover.words, hover.hashes⟩

section Written
variable {w : SegmentWriter} (hw : w.Written calls) (haddr : w.Addressable)
include hw

theorem numColumns_finish : w.finish.numColumns = t.columns.length := by
  have hsame := hw.columns.length_eq
  rw [h.columns, List.length_map] at hsame
  exact hsame.symm

/-- The number of rows is that of the table without indexes. -/
theorem rowCount_written {c : IntegerColumn} (hc : c ∈ t.columns) (hfit : t.ColumnsFit) : w.rowCount = t.rows := by
  obtain ⟨plain, hrun, -⟩ := hfit.written
  have hplain := SegmentWriter.run_written hrun
  rw [← t.rowCount_calls hplain hc, hw.rowCount, hplain.rowCount, h.columns, t.addedColumns_calls]

include haddr

theorem getColumn_finish (hfit : t.ColumnsFit) {i : Nat} {c : IntegerColumn} (hc : t.columns[i]? = some c) :
    w.finish.getColumn i = .ok (.ofValues c.type c.values) := by
  obtain ⟨wc, hwc, hwritten⟩ := hw.column (h.addedColumn hc)
  exact c.getColumn_of_restored hwc (haddr.pointed hwc).1 hwritten (hfit.restored (List.mem_of_getElem? hc))

theorem getBloomFilter_finish {i : Nat} {c : IntegerColumn} (hc : t.columns[i]? = some c) :
    w.finish.getBloomFilter i = .ok (bloomFilterOf calls i) := by
  obtain ⟨hpos, hwords, hhashes⟩ := h.bloomFilterOf_fits i
  rw [SegmentWriter.written_bloomFilter hw (h.addedColumn hc) (haddr.filterPointed i) (by omega) hhashes,
    BloomFilter.restored_of_lt hpos hwords]

/-- The table and its indexes are a segment that can be scanned. -/
theorem exists_shownBy (hfit : t.ColumnsFit) : ∃ s : IntactSegment, s.segment = w.finish ∧ t.ShownBy s := by
  have hlen := h.numColumns_finish hw
  have hin : ∀ i ∈ List.range w.finish.numColumns, ∃ c, t.columns[i]? = some c := fun i hi =>
    ⟨_, List.getElem?_eq_getElem (hlen ▸ List.mem_range.mp hi)⟩
  have hrows : ∀ c ∈ t.columns, w.finish.numRows = t.rows := fun c hc => h.rowCount_written hw hc hfit
  have hcolumns : (List.range w.finish.numColumns).mapM w.finish.getColumn = .ok t.readColumns := by
    refine mapM_range_eq_ok.mpr ⟨by rw [readColumns, List.length_map, hlen], fun i col hcol => ?_⟩
    rw [readColumns, List.getElem?_map] at hcol
    obtain ⟨c, hc, rfl⟩ := Option.map_eq_some_iff.mp hcol
    exact h.getColumn_finish hw haddr hfit hc
  obtain ⟨zoneMaps, hzoneMaps⟩ : ∃ zoneMaps,
      (List.range w.finish.numColumns).mapM w.finish.getZoneMap = .ok zoneMaps := by
    refine exists_mapM_ok fun i hi => ?_
    obtain ⟨c, hc⟩ := hin i hi
    obtain ⟨zm, hzm, -⟩ := SegmentWriter.written_zoneMap hw (h.addedColumn hc) haddr
    exact ⟨zm, hzm⟩
  have hblooms := mapM_ok (f := w.finish.getBloomFilter) (g := bloomFilterOf calls) fun i hi => by
    obtain ⟨c, hc⟩ := hin i hi
    exact h.getBloomFilter_finish hw haddr hc
  refine ⟨⟨w.finish, t.readColumns, zoneMaps, _, hcolumns, hzoneMaps, hblooms, ?_, ?_⟩, rfl, rfl, ?_⟩
  · intro col hcol
    obtain ⟨c, hc, rfl⟩ := List.mem_map.mp hcol
    exact Bool.or_eq_true_iff.mpr (.inl c.integer)
  · intro col hcol
    obtain ⟨c, hc, rfl⟩ := List.mem_map.mp hcol
    exact (t.equalLength c hc).trans (hrows c hc).symm
  · intro hne
    obtain ⟨c, hc⟩ := List.exists_mem_of_ne_nil _ hne
    exact hrows c hc

/-- The file opens to the segment: its sizes fit their fields. -/
theorem open_file (layout : MetaLayout) (hfit : t.ColumnsFit) (hrun : SegmentWriter.run {} calls = .ok w) :
    openSegment layout (w.finishFile layout) = .ok w.finish := by
  obtain ⟨s, hs, hshown⟩ := h.exists_shownBy hw haddr hfit
  have hlengths : ∀ c ∈ t.columns, c.values.length < 2 ^ 32 := by
    intro c hc
    have hne : s.columns ≠ [] := by
      rw [hshown.columns]
      exact List.ne_nil_of_mem (List.mem_map_of_mem hc)
    have hlen := (t.equalLength c hc).trans (hshown.numRows (List.ne_nil_of_mem hc)).symm
    have hsmall := IntactSegment.numRows_lt_of_ne_nil hne
    omega
  have hnew : ({} : SegmentWriter).Storable := ⟨by decide, by decide, fun c hc => (List.not_mem_nil hc).elim⟩
  have hstorable : w.Storable := by
    refine foldlM_preserves (fun call hcall w w' hw happly => ?_) hnew hrun
    cases call with
    | addColumn type values nulls encoding =>
      obtain ⟨c, hc, heq⟩ := h.mem_columns hcall
      cases heq
      have hlen := hlengths c hc
      have hflags := c.flagged
      have hcall : c.call.WellFormed := ⟨by omega, by omega⟩
      exact hw.apply hcall happly
    | setTimestamp ts =>
      cases happly
      exact ⟨hw.rowCount, hw.createdTs, hw.stats⟩
    | addZoneMap i zm =>
      cases happly
      exact ⟨hw.rowCount, hw.createdTs, hw.stats⟩
    | addBloomFilter i bf =>
      cases happly
      exact ⟨hw.rowCount, hw.createdTs, hw.stats⟩
  refine SegmentWriter.open_finishFile layout (SegmentWriter.finish_storable hstorable ?_)
  have hsize : headerSize w.columns.length ≤ w.fileSize := Nat.le_add_right ..
  have haddr : w.fileSize < 2 ^ 32 := haddr
  simp only [headerSize, kColumnMetaSize] at hsize
  omega

end Written

/-! ### Scanning it -/

section Scanned
variable {s : IntactSegment} {w : SegmentWriter} (hw : w.Written calls) (haddr : w.Addressable)
  (hs : s.segment = w.finish) (hshown : t.ShownBy s) {i : Nat} {c : IntegerColumn} (hc : t.columns[i]? = some c)
include hw haddr hs hshown hc

theorem readBloomFilter : s.bloomFilters.getD i .empty = bloomFilterOf calls i := by
  have hread := IntactSegment.getBloomFilter (hshown.getElem?_columns hc)
  rw [hs, h.getBloomFilter_finish hw haddr hc] at hread
  exact (Except.ok.inj hread).symm

/-- The map that is read has no blocks, or those of the column. -/
theorem readZoneMap : (s.zoneMaps.getD i {}).entries = [] ∨
    s.ZoneMapped i blockRows (.ofValues c.type c.values) := by
  have hread := getD_of_mapM_range s.zoneMaps_read
    (IntactSegment.lt_numColumns (hshown.getElem?_columns hc)) {}
  obtain ⟨zm, hzm, hentries⟩ := SegmentWriter.written_zoneMap hw (h.addedColumn hc) haddr
  rw [hs, hzm] at hread
  rw [← Except.ok.inj hread, hentries]
  rcases zoneMapOf_mem calls i with hnone | hcall
  · exact .inl (by rw [hnone])
  · obtain ⟨c', hc', hbuild⟩ := h.zoneMaps i _ hcall
    cases hc.symm.trans hc'
    exact .inr ⟨_, hbuild, by rw [← Except.ok.inj hread, hentries]⟩

end Scanned

end IndexedBy

/-! ### What pruning leaves -/

/-- A value lies in the block of its number divided by the size. -/
theorem getElem_mem_block {α : Type} {xs : List α} (hpos : 1 ≤ blockRows) {r : Nat} (hr : r < xs.length) :
    xs[r] ∈ ZoneMap.block blockRows (r / blockRows) xs := by
  have hstart : r / blockRows * blockRows ≤ r := Nat.div_mul_le_self r blockRows
  have hend : r < r / blockRows * blockRows + blockRows := Nat.lt_div_mul_add hpos
  refine List.mem_take_iff_getElem.mpr ⟨r - r / blockRows * blockRows, ?_, ?_⟩
  · rw [List.length_drop]
    omega
  · rw [List.getElem_drop]
    congr 1
    omega

theorem value_eq {i : Nat} {c : IntegerColumn} (hc : t.columns[i]? = some c) {r : Nat} (hr : r < c.values.length) :
    t.value r i = (c.values[r]).toInt := by
  rw [value, hc]
  exact congrArg BitVec.toInt (List.getD_eq_getElem _ _ hr)

/-- A block that has a row on which the first leaf is true is kept. -/
theorem zoneMapKeeps_of_holds {s : IntactSegment} (hshown : t.ShownBy s) (hpos : 1 ≤ blockRows) {c : IntegerColumn}
    (hc : t.columns[chain.head.column]? = some c)
    (hmap : (s.zoneMaps.getD chain.head.column {}).entries = [] ∨
      s.ZoneMapped chain.head.column blockRows (.ofValues c.type c.values))
    (hrep : t.Representable chain) {r : Nat} (hr : r < t.rows) (hholds : chain.head.holds (t.value r) = true) :
    s.zoneMapKeeps chain (.ofValues c.type c.values) (r / blockRows) = true := by
  rcases hmap with hnone | hmapped
  · exact IntactSegment.zoneMapKeeps_unmapped hnone _
  have hlen : r < c.values.length := by rwa [t.equalLength c (List.mem_of_getElem? hc)]
  refine (IntactSegment.zoneMapKeeps_mapped (hshown.getElem?_columns hc) c.integer hmapped _).mpr (.inr ?_)
  show Admits _ _ (chain.head.cut c.type).toInt
  rw [IntactSegment.toInt_cut c.integer (hrep _ List.mem_cons_self c hc)]
  rw [Leaf.holds, value_eq hc hlen] at hholds
  exact admits_of_holds (List.mem_map_of_mem (getElem_mem_block hpos hlen)) hholds

/-- The filter last added to a column is one of those added. -/
theorem bloomFilterOf_added {i : Nat} {bf : BloomFilter} (hadd : WriterCall.addBloomFilter i bf ∈ calls) :
    WriterCall.addBloomFilter i (bloomFilterOf calls i) ∈ calls := by
  induction calls using List.reverseRecOn with
  | nil => cases hadd
  | append_singleton before call ih =>
    have hlast : bloomFilterOf (before ++ [call]) i = call.bloomFilterAfter i (bloomFilterOf before i) := by
      rw [bloomFilterOf, List.foldl_append]
      rfl
    rw [hlast]
    by_cases hcall : ∃ bf', call = .addBloomFilter i bf'
    · obtain ⟨bf', rfl⟩ := hcall
      rw [WriterCall.bloomFilterAfter, if_pos rfl]
      exact List.mem_append_right _ List.mem_cons_self
    · have hbefore : WriterCall.addBloomFilter i bf ∈ before := by
        rcases List.mem_append.mp hadd with hadd | hadd
        · exact hadd
        · exact absurd ⟨bf, (List.mem_singleton.mp hadd).symm⟩ hcall
      have hkeep : call.bloomFilterAfter i (bloomFilterOf before i) = bloomFilterOf before i := by
        cases call with
        | addBloomFilter j bf' =>
          refine if_neg fun hj => hcall ⟨bf', ?_⟩
          rw [hj]
        | _ => rfl
      rw [hkeep]
      exact List.mem_append_left _ (ih hbefore)

/-- A filter that is asked finds the constant of an equality that is true on a row. -/
theorem IndexedBy.bloomFilterAllows_of_holds (h : t.IndexedBy blockRows calls) {s : IntactSegment}
    {w : SegmentWriter} (hw : w.Written calls) (haddr : w.Addressable) (hs : s.segment = w.finish)
    (hshown : t.ShownBy s) {c : IntegerColumn} (hc : t.columns[chain.head.column]? = some c) (context : ScanContext)
    (hanswers : asksFilter context chain = true → t.FilterAnswers calls chain.head) :
    ∃ found, (s.scanner context).bloomFilterAllows chain.predicate = .ok found ∧
      ∀ r < t.rows, chain.head.holds (t.value r) = true → found = true := by
  rw [IntactSegment.bloomFilterAllows_chain (hshown.getElem?_columns hc), IntactSegment.bloomFilterKeeps,
    h.readBloomFilter hw haddr hs hshown hc]
  by_cases hasks : asksFilter context chain = true
  · obtain ⟨henabled, hop⟩ := Bool.and_eq_true_iff.mp hasks
    have hop := of_decide_eq_true hop
    obtain ⟨⟨bf, hadd⟩, hkeyed⟩ := hanswers hasks
    obtain ⟨c', numBits, numHashes, hc', hover⟩ := h.bloomFilters _ _ (bloomFilterOf_added hadd)
    cases hc.symm.trans hc'
    obtain ⟨hbits, hhashes, hholds⟩ := BloomFilter.holds_addAll hover.built
    have hpos : 0 < (bloomFilterOf calls chain.head.column).numBits := hbits ▸ hover.bits
    have hwords : (bloomFilterOf calls chain.head.column).numBits + 63 < 2 ^ 64 := hbits ▸ hover.words
    obtain ⟨found, hfound, -⟩ := hholds.mightContain hpos (.inl hwords) chain.head.constant
    rw [if_pos henabled, if_pos hop]
    refine ⟨found, hfound, fun r hr heq => ?_⟩
    have hlen : r < c.values.length := by rwa [t.equalLength c (List.mem_of_getElem? hc)]
    rw [Leaf.holds, hop, value_eq hc hlen] at heq
    have hkey := key_eq_constant (of_decide_eq_true heq) (hkeyed c hc)
    have hmem : chain.head.constant ∈ c.values.map fun x => BloomFilter.key x :=
      hkey ▸ List.mem_map_of_mem (List.getElem_mem hlen)
    exact Except.ok.inj (hfound.symm.trans (hholds.mightContain_mem hpos (.inl hwords) hmem))
  · refine ⟨true, ?_, fun _ _ _ => rfl⟩
    unfold asksFilter at hasks
    cases henabled : context.enableBloomFilter with
    | false => rfl
    | true =>
      rw [henabled, Bool.true_and, decide_eq_true_eq] at hasks
      exact (if_pos rfl).trans (if_neg hasks)

/-- **A table that was written with zone maps and filters over its columns, opened and scanned
in the blocks of the maps delivers the rows on which a conjunction is true, whichever of the
two a scan may use, if an equality that asks a filter has one that answers.** -/
theorem indexed_file_scans (build : Build) (layout : MetaLayout) (t : IntegerTable) (context : ScanContext)
    (hpos : 1 ≤ context.blockSize) (hsize : context.blockSize ≤ kScanBlockSize) (calls : List WriterCall)
    (hindexed : t.IndexedBy context.blockSize calls)
    (haddr : ∀ w, SegmentWriter.run {} calls = .ok w → w.Addressable) (hfit : t.ColumnsFit) (chain : Chain)
    (hcolumns : t.HasColumns chain) (hconj : chain.IsConjunction) (hrep : t.Representable chain)
    (hanswers : asksFilter context chain = true → t.FilterAnswers calls chain.head) :
    ∃ w seg stats batches,
      SegmentWriter.run {} calls = .ok w ∧
      openSegment layout (w.finishFile layout) = .ok seg ∧
      scanSegment build seg context chain.predicate = .ok (stats, batches) ∧
      Delivers t.readColumns batches (t.matching chain) ∧
      stats.rowsReturned = deliveredRows batches := by
  obtain ⟨w, hrun⟩ := hindexed.written hfit
  have hw := SegmentWriter.run_written hrun
  have haddr := haddr w hrun
  obtain ⟨s, hs, hshown⟩ := hindexed.exists_shownBy hw haddr hfit
  obtain ⟨c, hc⟩ : ∃ c, t.columns[chain.head.column]? = some c :=
    ⟨_, List.getElem?_eq_getElem (hcolumns _ List.mem_cons_self)⟩
  obtain ⟨found, hallows, hfound⟩ :=
    hindexed.bloomFilterAllows_of_holds hw haddr hs hshown hc context hanswers
  have hchecks : Checks (s.scanner context) chain.predicate
      (fun block => !context.enableZoneMapPruning || s.zoneMapKeeps chain (.ofValues c.type c.values) block) found :=
    ⟨fun block => IntactSegment.zoneMapAllows_chain (hshown.getElem?_columns hc) block, hallows⟩
  obtain ⟨stats, batches, hscan, hdelivers, hcount⟩ :=
    hshown.scan_checks build hcolumns hconj.1 hrep context hpos hsize hchecks
  refine ⟨w, w.finish, stats, batches, hrun, hindexed.open_file hw haddr layout hfit hrun, hs ▸ hscan, ?_, hcount⟩
  -- Where the conjunction is true its first leaf is, and there neither check skips the row.
  rwa [List.filter_eq_self.mpr] at hdelivers
  intro r hr
  obtain ⟨hrows, htrue⟩ := List.mem_filter.mp hr
  have hrows := List.mem_range.mp hrows
  have hhead := (hconj.eval_iff (t.value r)).mp htrue chain.head List.mem_cons_self
  have hkeeps := zoneMapKeeps_of_holds hshown hpos hc (hindexed.readZoneMap hw haddr hs hshown hc) hrep hrows hhead
  rw [allowed, hkeeps, Bool.or_true, hfound r hrows hhead]
  rfl

/-- Two columns with the map of the first added before them and its filter behind them. -/
def indexedTable : IntegerTable where
  columns :=
    [ {type := .int32, integer := DataType.isInteger_int32, encoding := .plain, codec := hasIntegerCodec_plain
       values := [5, -1, 7, 6, 7], nulls := List.replicate 5 false, flagged := List.length_replicate},
      {type := .int64, integer := DataType.isInteger_int64, encoding := .plain, codec := hasIntegerCodec_plain
       values := [1, 2, 3, 4, 5], nulls := List.replicate 5 false, flagged := List.length_replicate} ]
  rows := 5
  equalLength := by decide

def indexedCalls : List WriterCall :=
  .addZoneMap 0 ((ZoneMap.buildFromColumn {blockRows := 2} .int32 [5, -1, 7, 6, 7] none).toOption.getD {}) ::
    indexedTable.calls ++
    [.addBloomFilter 0 (((BloomFilter.ofSize 256 3).addAll [5, 0xffffffff, 7, 6, 7]).toOption.getD .empty)]

/-- Equal to 7 in the first column and greater than 2 in the second. -/
def indexedChain : Chain := {head := ⟨.eq, .int32, 0, 7⟩, tail := [(.and, ⟨.gt, .int64, 1, 2⟩, 0)]}

theorem indexedCalls_indexedBy : indexedTable.IndexedBy 2 indexedCalls := by
  refine ⟨rfl, fun i zm hadd => ?_, fun i bf hadd => ?_⟩
  · simp only [indexedCalls, calls, indexedTable, List.map_cons, List.map_nil, IntegerColumn.call, List.cons_append,
      List.nil_append, List.mem_cons, List.not_mem_nil, or_false, reduceCtorEq, WriterCall.addZoneMap.injEq] at hadd
    obtain ⟨rfl, rfl⟩ := hadd
    exact ⟨_, rfl, rfl⟩
  · simp only [indexedCalls, calls, indexedTable, List.map_cons, List.map_nil, IntegerColumn.call, List.cons_append,
      List.nil_append, List.mem_cons, List.not_mem_nil, or_false, false_or, reduceCtorEq,
      WriterCall.addBloomFilter.injEq] at hadd
    obtain ⟨rfl, rfl⟩ := hadd
    exact ⟨_, 256, 3, rfl, by decide +kernel, by decide, by decide, by decide⟩

theorem indexedTable_file_scans :
    ∃ w seg stats batches,
      SegmentWriter.run {} indexedCalls = .ok w ∧
      openSegment .lp64 (w.finishFile .lp64) = .ok seg ∧
      scanSegment .scalar seg {blockSize := 2} indexedChain.predicate = .ok (stats, batches) ∧
      Delivers indexedTable.readColumns batches (indexedTable.matching indexedChain) ∧
      stats.rowsReturned = deliveredRows batches := by
  refine indexed_file_scans .scalar .lp64 indexedTable {blockSize := 2} (by decide) (by decide) indexedCalls
    indexedCalls_indexedBy ?_ ?_ indexedChain ?_ (by decide) ?_ fun _ => ⟨?_, fun _ _ => .inr (by decide)⟩
  · intro w hrun
    have hsmall : (SegmentWriter.run {} indexedCalls).map (fun w => decide w.Addressable) = .ok true := by
      decide +kernel
    rw [hrun] at hsmall
    exact of_decide_eq_true (Except.ok.inj hsmall)
  · intro c hc
    simp only [indexedTable, List.mem_cons, List.not_mem_nil, or_false] at hc
    rcases hc with rfl | rfl <;> exact .inr trivial
  · intro leaf hleaf
    simp only [indexedChain, Chain.leaves, List.map_cons, List.map_nil, List.mem_cons, List.not_mem_nil,
      or_false] at hleaf
    rcases hleaf with rfl | rfl <;> decide
  · intro leaf hleaf c hc
    simp only [indexedChain, Chain.leaves, List.map_cons, List.map_nil, List.mem_cons, List.not_mem_nil,
      or_false] at hleaf
    rcases hleaf with rfl | rfl
    · cases hc
      exact ⟨7, by decide⟩
    · cases hc
      exact ⟨2, by decide⟩
  · exact ⟨_, List.mem_append_right _ List.mem_cons_self⟩

end IntegerTable

end ColumnarStore
