import ColumnarStore.Delta.History
import ColumnarStore.Segment.Intact

/-! Merging one column.

The values of the segments and those of the delta store are put together in the order
of their timestamps and encoded. From the store the merger takes every row that has an
insert; it never looks at the deletes. -/
namespace ColumnarStore.Merger
open Foundation Delta

structure ColumnMerger where
  columnType : DataType
  encodingType : EncodingType
  columnIndex : Nat := 0

namespace ColumnMerger

/-- The bytes of a value over a zeroed one, of more bytes than it has the first ones. -/
def valueOf (t : DataType) (data : Bytes) : Native t :=
  BitVec.ofNat _ (leValue (data.take t.typeSize))

/-- `GetColumnData` of a whole column into a zeroed array of `NumRows` values. -/
def readColumn (t : DataType) (seg : Segment) (col : Nat) : Outcome (List (Native t)) := do
  let n := seg.numRows
  let bytes ← seg.getColumnData col 0 n
  let colData := bytes ++ List.replicate (n * t.typeSize - bytes.length) 0
  if n * t.typeSize < bytes.length then .error .outOfBounds
  else orFault .outOfBounds (loadWords t.typeSize n colData)

/-- The values of a segment's column, each with the segment's timestamp. -/
def segmentValues (m : ColumnMerger) (t : DataType) (seg : Segment) :
    Outcome (List (Nat × Native t)) := do
  let colData ← readColumn t seg m.columnIndex
  return colData.map fun value => (seg.header.createdTs, value)

/-- What the visitor of `VisitInserts` collects. -/
def insertedValues (m : ColumnMerger) (t : DataType) (delta : Option DeltaStore) : List (Nat × Native t) :=
  match delta with
  | none => []
  | some delta => (delta.visitInserts m.columnIndex).map fun e => (e.2.1.toNat, valueOf t e.2.2)

/-- The least and the greatest of the values, as `int64_t`. -/
def widenedBounds (t : DataType) (first : Native t) (rest : List (Native t)) : Int64Bits × Int64Bits :=
  rest.foldl (fun bounds value =>
      let v := value.toInt64 t
      (if v.slt bounds.1 then v else bounds.1, if bounds.2.slt v then v else bounds.2))
    (first.toInt64 t, first.toInt64 t)

/-- The encoded values and the statistics, written over those the caller passes. -/
def mergeColumn (m : ColumnMerger) (t : DataType) (segments : List Segment) (delta : Option DeltaStore)
    (outStats : ColumnStats := {}) : Outcome (List UInt8 × ColumnStats) := do
  let perSegment ← segments.mapM (m.segmentValues t)
  let all := perSegment.flatten ++ m.insertedValues t delta
  let sorted := (all.insertionSort fun a b => a.1 ≤ b.1).map Prod.snd
  -- There is no plain encoder for the other types: `CreateEncoder` returns a null pointer.
  if !t.isNumeric then .error .nullPointer
  else do
    let outputData ← Encoding.createEncoder .plain t (storeWords t.typeSize sorted) sorted.length
    let outStats := {outStats with type := m.columnType, totalCount := sorted.length, nullCount := 0}
    match sorted with
    | [] => return (outputData, outStats)
    | first :: rest =>
      let (minInt, maxInt) := widenedBounds t first rest
      return (outputData, {outStats with hasMinMax := true, minInt, maxInt})

end ColumnMerger

/-! ### The merged values -/

/-- A segment whose column `col` can be read as values of type `t`, one for each row. -/
structure SegmentColumn (t : DataType) (col : Nat) where
  segment : Segment
  values : List (Native t)
  full : values.length = segment.numRows
  read : segment.getColumnData col 0 segment.numRows = .ok (storeWords t.typeSize values)

namespace ColumnMerger
variable {t : DataType} {m : ColumnMerger}

theorem readColumn_eq {col : Nat} (s : SegmentColumn t col) : readColumn t s.segment col = .ok s.values := by
  have hlen : (storeWords t.typeSize s.values).length = s.segment.numRows * t.typeSize := by
    rw [length_storeWords, s.full, Nat.mul_comm]
  have hload := loadWords_storeWords t.typeSize s.values []
  rw [readColumn, s.read, bind_ok]
  simp only [hlen, lt_irrefl, if_false, Nat.sub_self, List.replicate_zero]
  rw [← s.full, hload, orFault_some]

/-- What is sorted: the values of the segments behind each other, then those of the store. -/
def entries (m : ColumnMerger) (segments : List (SegmentColumn t m.columnIndex)) (delta : Option DeltaStore) :
    List (Nat × Native t) :=
  (segments.flatMap fun s => s.values.map fun value => (s.segment.header.createdTs, value)) ++
    m.insertedValues t delta

/-- The values that are encoded are those of the segments and of the store, by their timestamps. -/
theorem mergeColumn_of_segmentValues (ht : t.isNumeric = true) {segments : List Segment}
    {perSegment : List (List (Nat × Native t))} (hsegments : segments.mapM (m.segmentValues t) = .ok perSegment)
    (delta : Option DeltaStore) (outStats : ColumnStats) :
    ∃ stats, m.mergeColumn t segments delta outStats = .ok (storeWords t.typeSize
      (((perSegment.flatten ++ m.insertedValues t delta).insertionSort fun a b => a.1 ≤ b.1).map Prod.snd), stats) := by
  have hencode : ∀ values : List (Native t),
      Encoding.createEncoder .plain t (storeWords t.typeSize values) values.length =
        .ok (storeWords t.typeSize values) := by
    intro values
    have hplain : Encoding.createEncoder .plain t = .of t (Encoding.Plain.encode t) := by
      cases t <;> first | rfl | cases ht
    rw [hplain, Encoding.Encoder.of_storeWords]
    rfl
  rw [mergeColumn, hsegments, bind_ok]
  simp only [ht, Bool.not_true, Bool.false_eq_true, if_false]
  generalize ((perSegment.flatten ++ m.insertedValues t delta).insertionSort fun a b => a.1 ≤ b.1).map
    Prod.snd = sorted
  rw [hencode, bind_ok]
  cases sorted with
  | nil => exact ⟨_, rfl⟩
  | cons first rest => exact ⟨_, rfl⟩

theorem mergeColumn_sorted (ht : t.isNumeric = true) (segments : List (SegmentColumn t m.columnIndex))
    (delta : Option DeltaStore) (outStats : ColumnStats) :
    ∃ stats, m.mergeColumn t (segments.map SegmentColumn.segment) delta outStats =
      .ok (storeWords t.typeSize
        (((m.entries segments delta).insertionSort fun a b => a.1 ≤ b.1).map Prod.snd), stats) := by
  have hsegments : (segments.map SegmentColumn.segment).mapM (m.segmentValues t) =
      .ok (segments.map fun s => s.values.map fun value => (s.segment.header.createdTs, value)) := by
    rw [mapM_eq_ok, List.forall₂_map_left_iff, List.forall₂_map_right_iff]
    refine List.forall₂_same.mpr fun s _ => ?_
    rw [segmentValues, readColumn_eq s]
    rfl
  rw [entries, List.flatMap_def]
  exact mergeColumn_of_segmentValues ht hsegments delta outStats

/-- The values that are encoded are, up to their order, those of the segments and one
for each entry the store's visitor sees. -/
theorem mergeColumn_perm (ht : t.isNumeric = true) (segments : List (SegmentColumn t m.columnIndex))
    (delta : DeltaStore) (outStats : ColumnStats) :
    ∃ values stats,
      m.mergeColumn t (segments.map SegmentColumn.segment) (some delta) outStats =
        .ok (storeWords t.typeSize values, stats) ∧
      values.Perm (segments.flatMap SegmentColumn.values ++
        (delta.visitInserts m.columnIndex).map fun e => valueOf t e.2.2) := by
  obtain ⟨stats, hmerge⟩ := mergeColumn_sorted ht segments (some delta) outStats
  refine ⟨_, stats, hmerge, ?_⟩
  have hcolumns : (segments.flatMap fun s => s.values.map fun value =>
      (s.segment.header.createdTs, value)).map Prod.snd = segments.flatMap SegmentColumn.values := by
    rw [List.map_flatMap]
    refine List.flatMap_congr fun s _ => ?_
    rw [List.map_map]
    exact List.map_id _
  have hinserted : (m.insertedValues t (some delta)).map Prod.snd =
      (delta.visitInserts m.columnIndex).map fun e => valueOf t e.2.2 := List.map_map ..
  refine ((List.perm_insertionSort _ (m.entries segments (some delta))).map Prod.snd).trans (.of_eq ?_)
  rw [entries, List.map_append, hcolumns, hinserted]

end ColumnMerger

/-! ### Rows that a read over all rows shows -/

/-- The last row id, which no range contains. -/
def lastRowId : RowId := 0 - 1

/-- A read over all rows is the visited entries without the hidden ones. -/
theorem rangeRows_all {s : DeltaStore} {col : Nat} {d : ColumnDelta} (hd : s.columns[col]? = some d) :
    s.rangeRows col 0 lastRowId =
      ((s.visitInserts col).filter fun e => decide (e.1 < lastRowId) && d.live e.1 e.2.1).map
        fun e => (e.1, e.2.2) := by
  have hskip : (d.inserts.toList.dropWhile fun e => e.1 < 0) = d.inserts.toList := by
    cases d.inserts.toList with
    | nil => rfl
    | cons e rest => exact List.dropWhile_cons_of_neg (by simp)
  have htake := d.inserts_ascending.takeWhile_lt lastRowId.toNat
  simp only [← UInt64.lt_iff_toNat_lt] at htake
  rw [DeltaStore.rangeRows, DeltaStore.getRange, DeltaStore.visitInserts, hd]
  simp only [hskip, htake, List.nil_append]
  generalize d.inserts.toList = l
  induction l with
  | nil => rfl
  | cons e rest ih =>
    by_cases hlast : e.1 < lastRowId
    · cases hlive : d.live e.1 e.2.1 with
      | true => simp [hlast, hlive, ih]
      | false => simp [hlast, hlive, ih]
    · simp [hlast, ih]

namespace ColumnMerger
variable {t : DataType} {m : ColumnMerger}

/-- What is encoded are the values of the segments and one value for each row that a read
over all rows shows, so none for a row that is deleted. -/
def MergesVisible (m : ColumnMerger) (t : DataType) (segments : List (SegmentColumn t m.columnIndex))
    (delta : DeltaStore) : Prop :=
  ∃ values stats, m.mergeColumn t (segments.map SegmentColumn.segment) (some delta) =
      .ok (storeWords t.typeSize values, stats) ∧
    values.Perm (segments.flatMap SegmentColumn.values ++
      (delta.getRange m.columnIndex 0 lastRowId []).map fun e => valueOf t e.2)

/-- Every entry the visitors see is newer than any delete of its row, and not of the last row. -/
def NoneHidden (delta : DeltaStore) (col : Nat) : Prop :=
  ∀ e ∈ delta.visitInserts col, e.1 < lastRowId ∧
    ∀ del ∈ delta.visitDeletes col, del.1 = e.1 → del.2 < e.2.1

theorem noneHidden_iff {delta : DeltaStore} {col : Nat} {d : ColumnDelta}
    (hd : delta.columns[col]? = some d) : NoneHidden delta col ↔
      ∀ e ∈ delta.visitInserts col, (decide (e.1 < lastRowId) && d.live e.1 e.2.1) = true := by
  have hlive : ∀ (r : RowId) (t : Timestamp), d.live r t = true ↔
      ∀ del ∈ delta.visitDeletes col, del.1 = r → del.2 < t := by
    intro r t
    have hmem : ∀ del, del ∈ delta.visitDeletes col ↔ d.deletes[del.1]? = some del.2 := by
      intro del
      rw [DeltaStore.visitDeletes, hd]
      exact Std.TreeMap.mem_toList_iff_getElem?_eq_some
    unfold ColumnDelta.live
    constructor
    · rintro h ⟨r', deleted⟩ hdel rfl
      rw [(hmem _).mp hdel] at h
      simpa using h
    · intro h
      cases hdel : d.deletes[r]? with
      | none => rfl
      | some deleted => simpa using h (r, deleted) ((hmem _).mpr hdel) rfl
  simp only [NoneHidden, Bool.and_eq_true, decide_eq_true_eq, hlive]

/-- The column merger leaves hidden rows out exactly when there are none. -/
theorem mergesVisible_iff (ht : t.isNumeric = true) (segments : List (SegmentColumn t m.columnIndex))
    {delta : DeltaStore} {d : ColumnDelta} (hd : delta.columns[m.columnIndex]? = some d) :
    m.MergesVisible t segments delta ↔ NoneHidden delta m.columnIndex := by
  obtain ⟨values, stats, hmerge, hperm⟩ := mergeColumn_perm ht segments delta {}
  have hrows : (delta.getRange m.columnIndex 0 lastRowId []).map (fun e => valueOf t e.2) =
      ((delta.visitInserts m.columnIndex).filter fun e =>
        decide (e.1 < lastRowId) && d.live e.1 e.2.1).map fun e => valueOf t e.2.2 := by
    show (delta.rangeRows m.columnIndex 0 lastRowId).map _ = _
    rw [rangeRows_all hd, List.map_map]
    rfl
  rw [MergesVisible, hrows, noneHidden_iff hd]
  constructor
  · intro h
    obtain ⟨values', stats', hmerge', hperm'⟩ := h
    have hsame : storeWords t.typeSize values = storeWords t.typeSize values' :=
      congrArg Prod.fst (Except.ok.inj (hmerge.symm.trans hmerge'))
    have hlen := (hperm.symm.trans ((storeWords_injective t.typeSize_pos hsame) ▸ hperm')).length_eq
    simp only [List.length_append, List.length_map] at hlen
    exact List.length_filter_eq_length_iff.mp (by omega)
  · intro hall
    rw [List.filter_eq_self.mpr hall]
    exact ⟨values, stats, hmerge, hperm⟩

end ColumnMerger

/-! ### Runs -/

/-- Data for all columns, and the store's own timestamps; nothing is cleared. -/
def PlainWrite (numColumns : Nat) : Write → Prop
  | .insert _ columnData timestamp => numColumns ≤ columnData.length ∧ timestamp = 0
  | .delete _ timestamp => timestamp = 0
  | .clear => False

instance (numColumns : Nat) : DecidablePred (PlainWrite numColumns)
  | .insert _ columnData timestamp => inferInstanceAs (Decidable (numColumns ≤ columnData.length ∧ timestamp = 0))
  | .delete _ timestamp => inferInstanceAs (Decidable (timestamp = 0))
  | .clear => inferInstanceAs (Decidable False)

section Run
variable {numColumns col : Nat} {flushThreshold : UInt64} {writes : List Write}

/-- A column has an entry for exactly the rows that were ever inserted. -/
theorem isSome_inserts_run (hplain : ∀ w ∈ writes, PlainWrite numColumns w) (hcol : col < numColumns) :
    ∃ d, ((DeltaStore.new numColumns flushThreshold).run writes).columns[col]? = some d ∧
      ∀ r : RowId, d.inserts[r]?.isSome ↔ ∃ columnData t, Write.insert r columnData t ∈ writes := by
  induction writes using List.reverseRecOn with
  | nil =>
    refine ⟨{}, ?_, fun r => by simp⟩
    simp [DeltaStore.run, DeltaStore.new, hcol]
  | append_singleton before w ih =>
    obtain ⟨d, hd, hrows⟩ := ih fun w' hw' => hplain w' (List.mem_append_left _ hw')
    have hw := hplain w (List.mem_append_right _ (List.mem_singleton_self w))
    rw [DeltaStore.run_append]
    generalize (DeltaStore.new numColumns flushThreshold).run before = s at hd
    cases w with
    | insert r columnData timestamp =>
      have hin : col < columnData.length := hcol.trans_le hw.1
      refine ⟨d.insert r (s.stamp timestamp) columnData[col], ?_, fun r' => ?_⟩
      · simp [DeltaStore.run, Write.apply, DeltaStore.insert, hd, List.getElem?_eq_getElem hin]
      · rw [ColumnDelta.inserts_insert]
        by_cases hr : r = r'
        · subst hr
          simp only [if_true, Option.isSome_some, true_iff]
          exact ⟨columnData, timestamp, by simp⟩
        · rw [if_neg hr, hrows]
          simp [Ne.symm hr]
    | delete r timestamp =>
      refine ⟨d.delete r (s.stamp timestamp), ?_, fun r' => ?_⟩
      · simp [DeltaStore.run, Write.apply, DeltaStore.delete, hd]
      · refine (hrows r').trans ?_
        simp
    | clear => exact absurd hw id

/-- No row is hidden exactly when every row that was ever inserted was inserted last. -/
theorem noneHidden_run (hplain : ∀ w ∈ writes, PlainWrite numColumns w) (hcol : col < numColumns)
    (hlen : writes.length < 2 ^ 64) :
    ColumnMerger.NoneHidden ((DeltaStore.new numColumns flushThreshold).run writes) col ↔
      ∀ r columnData t, Write.insert r columnData t ∈ writes →
        r < lastRowId ∧ (lastInsert col r writes.reverse).isSome := by
  have hauto : ∀ w ∈ writes, w.Automatic := by
    intro w hw
    have hplain := hplain w hw
    cases w with
    | insert r columnData t => exact hplain.2
    | delete r t => exact hplain
    | clear => trivial
  obtain ⟨d, hd, hrows⟩ := isSome_inserts_run hplain hcol
  have htracks := DeltaStore.tracks_run numColumns flushThreshold writes hauto hlen
  generalize (DeltaStore.new numColumns flushThreshold).run writes = s at hd htracks
  rw [ColumnMerger.noneHidden_iff hd]
  have hmem : ∀ e, e ∈ s.visitInserts col ↔ d.inserts[e.1]? = some e.2 := by
    intro e
    rw [DeltaStore.visitInserts, hd]
    exact Std.TreeMap.mem_toList_iff_getElem?_eq_some
  have hlive : ∀ r e, d.inserts[r]? = some e →
      (d.live r e.1 = true ↔ (lastInsert col r writes.reverse).isSome) := by
    intro r e he
    rw [← htracks.visible col d hd r, ColumnDelta.visible, he]
    cases hl : d.live r e.1 <;> simp [hl]
  constructor
  · intro hall r columnData t hw
    obtain ⟨e, he⟩ := Option.isSome_iff_exists.mp ((hrows r).mpr ⟨columnData, t, hw⟩)
    have hboth := hall (r, e) ((hmem _).mpr he)
    simp only [Bool.and_eq_true, decide_eq_true_eq] at hboth
    exact ⟨hboth.1, (hlive r e he).mp hboth.2⟩
  · rintro hall ⟨r, e⟩ he
    have he := (hmem _).mp he
    obtain ⟨columnData, t, hw⟩ := (hrows r).mp (by rw [he]; rfl)
    obtain ⟨hlast, hsome⟩ := hall r columnData t hw
    simp only [Bool.and_eq_true, decide_eq_true_eq]
    exact ⟨hlast, (hlive r e he).mpr hsome⟩

end Run

namespace ColumnMerger

/-- **Merging a column with a delta store respects deletes exactly when no entry of the
store is hidden by one**; short of the counter going round, that is when every row that
was ever inserted was inserted last. -/
theorem mergeColumn_respects_deletes_iff (m : ColumnMerger) (t : DataType) (ht : t.isNumeric = true)
    (segments : List (SegmentColumn t m.columnIndex)) (numColumns : Nat) (flushThreshold : UInt64)
    (hcol : m.columnIndex < numColumns) (writes : List Write)
    (hplain : ∀ w ∈ writes, PlainWrite numColumns w) :
    let delta := (DeltaStore.new numColumns flushThreshold).run writes
    (m.MergesVisible t segments delta ↔ NoneHidden delta m.columnIndex) ∧
      (writes.length < 2 ^ 64 → (NoneHidden delta m.columnIndex ↔
        ∀ r columnData t, Write.insert r columnData t ∈ writes →
          r < lastRowId ∧ (lastInsert m.columnIndex r writes.reverse).isSome)) := by
  obtain ⟨d, hd, -⟩ := isSome_inserts_run hplain hcol
  exact ⟨mergesVisible_iff ht segments hd, noneHidden_run hplain hcol⟩

/-- A row that stays and a row that is deleted and comes back, without any segment. -/
theorem reinserted_respects_deletes :
    let writes := [Write.insert 1 [[5]] 0, .insert 2 [[6]] 0, .delete 2 0, .insert 2 [[7]] 0]
    let m : ColumnMerger := {columnType := .int32, encodingType := .plain}
    let delta := (DeltaStore.new 1 100).run writes
    (m.MergesVisible .int32 [] delta ↔ NoneHidden delta 0) ∧
      (writes.length < 2 ^ 64 → (NoneHidden delta 0 ↔
        ∀ r columnData t, Write.insert r columnData t ∈ writes →
          r < lastRowId ∧ (lastInsert 0 r writes.reverse).isSome)) :=
  mergeColumn_respects_deletes_iff {columnType := .int32, encodingType := .plain} .int32 rfl [] 1 100
    (by decide) _ (by decide)

/-- A row deleted after its insert is merged all the same. -/
theorem deleted_row_merged :
    ¬ ({columnType := .int32, encodingType := .plain} : ColumnMerger).MergesVisible .int32 []
      ((DeltaStore.new 1 100).run [.insert 1 [[5]] 0, .delete 1 0]) := by
  have hd : ((DeltaStore.new 1 100).run [.insert 1 [[5]] 0, .delete 1 0]).columns[0]? =
      some (((({} : ColumnDelta).insert 1 1 [5])).delete 1 2) := rfl
  intro h
  have hnone := (mergesVisible_iff (m := {columnType := .int32, encodingType := .plain}) rfl [] hd).mp h
  have hhidden := (hnone (1, 1, [5]) (by decide +kernel)).2 (1, 2) (by decide +kernel) rfl
  exact absurd hhidden (by decide)

end ColumnMerger

end ColumnarStore.Merger
