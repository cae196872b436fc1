import ColumnarStore.Foundation.Ascending
import ColumnarStore.Delta.Versions
import ColumnarStore.Merger.ColumnMerger
import ColumnarStore.Segment.Writer

/-! Columns merged one at a time.

Every column is sorted on its own, by timestamps it reads itself. Each value is tagged
with the row it comes from; the tags and timestamps of two columns are the same lists,
for the segments because a segment has one timestamp and for the store because an
insert stamps all its columns alike. A stable sort then moves both columns alike. -/
namespace ColumnarStore.Merger
open Foundation Delta

/-! ### Timestamps of the store's columns -/

/-- The two columns have entries for the same rows, under the same timestamps. -/
def SameStamps (s : DeltaStore) (a b : Nat) : Prop :=
  ∃ da db, s.columns[a]? = some da ∧ s.columns[b]? = some db ∧
    ∀ r : RowId, (da.inserts[r]?).map Prod.fst = (db.inserts[r]?).map Prod.fst

namespace SameStamps
variable {s : DeltaStore} {a b numColumns : Nat}

theorem insert (h : SameStamps s a b) {columnData : List Bytes} (ha : a < columnData.length)
    (hb : b < columnData.length) (rowId : RowId) (timestamp : Timestamp) :
    SameStamps (s.insert rowId columnData timestamp) a b := by
  obtain ⟨da, db, hda, hdb, hsame⟩ := h
  refine ⟨da.insert rowId (s.stamp timestamp) columnData[a], db.insert rowId (s.stamp timestamp) columnData[b],
    ?_, ?_, fun r => ?_⟩
  · simp [DeltaStore.insert, hda, List.getElem?_eq_getElem ha]
  · simp [DeltaStore.insert, hdb, List.getElem?_eq_getElem hb]
  · rw [ColumnDelta.inserts_insert, ColumnDelta.inserts_insert]
    split
    · rfl
    · exact hsame r

theorem delete (h : SameStamps s a b) (rowId : RowId) (timestamp : Timestamp) :
    SameStamps (s.delete rowId timestamp) a b := by
  obtain ⟨da, db, hda, hdb, hsame⟩ := h
  refine ⟨da.delete rowId (s.stamp timestamp), db.delete rowId (s.stamp timestamp), ?_, ?_, hsame⟩
  · simp [DeltaStore.delete, hda]
  · simp [DeltaStore.delete, hdb]

theorem run (ha : a < numColumns) (hb : b < numColumns) (flushThreshold : UInt64) {writes : List Write}
    (hwrites : ∀ w ∈ writes, w.Complete numColumns ∧ w ≠ .clear) :
    SameStamps ((DeltaStore.new numColumns flushThreshold).run writes) a b := by
  induction writes using List.reverseRecOn with
  | nil =>
    refine ⟨{}, {}, ?_, ?_, fun _ => rfl⟩
    · simp [DeltaStore.run, DeltaStore.new, ha]
    · simp [DeltaStore.run, DeltaStore.new, hb]
  | append_singleton before w ih =>
    have hsame := ih fun w' hw' => hwrites w' (List.mem_append_left _ hw')
    obtain ⟨hcomplete, hclear⟩ := hwrites w (List.mem_append_right _ (List.mem_singleton_self w))
    rw [DeltaStore.run_append]
    cases w with
    | insert rowId columnData timestamp =>
      exact hsame.insert (ha.trans_le hcomplete) (hb.trans_le hcomplete) rowId timestamp
    | delete rowId timestamp => exact hsame.delete rowId timestamp
    | clear => exact absurd rfl hclear

/-- The visitors of the two columns see the same rows and timestamps, in the same order. -/
theorem visitInserts (h : SameStamps s a b) :
    (s.visitInserts a).map (fun e => (e.1, e.2.1)) = (s.visitInserts b).map fun e => (e.1, e.2.1) := by
  obtain ⟨da, db, hda, hdb, hsame⟩ := h
  have hascending : ∀ d : ColumnDelta, Ascending (fun e : RowId × Timestamp => e.1.toNat)
      (d.inserts.toList.map fun e => (e.1, e.2.1)) := fun d => d.inserts_ascending.map _ fun _ _ => id
  have hmem : ∀ (d : ColumnDelta) (e : RowId × Timestamp),
      e ∈ (d.inserts.toList.map fun e => (e.1, e.2.1)) ↔ (d.inserts[e.1]?).map Prod.fst = some e.2 := by
    intro d e
    simp only [List.mem_map, Option.map_eq_some_iff]
    constructor
    · intro he
      obtain ⟨⟨r, entry⟩, hentry, rfl⟩ := he
      exact ⟨entry, Std.TreeMap.mem_toList_iff_getElem?_eq_some.mp hentry, rfl⟩
    · intro he
      obtain ⟨entry, hentry, htime⟩ := he
      exact ⟨(e.1, entry), Std.TreeMap.mem_toList_iff_getElem?_eq_some.mpr hentry, Prod.ext rfl htime⟩
  rw [DeltaStore.visitInserts, DeltaStore.visitInserts, hda, hdb]
  refine (hascending da).ext (hascending db) fun e => ?_
  rw [hmem, hmem, hsame]

end SameStamps

/-! ### Values tagged with their rows -/

/-- A row of the segment of that number in the list, or a row of the store. -/
inductive SourceRow where
  | segment (number row : Nat)
  | delta (rowId : RowId)
deriving DecidableEq

namespace ColumnMerger
variable {t : DataType} {m : ColumnMerger}

/-- The value of a row in the column that is merged. -/
def valueAt (m : ColumnMerger) (segments : List (SegmentColumn t m.columnIndex)) (delta : DeltaStore) :
    SourceRow → Option (Native t)
  | .segment number row => segments[number]?.bind fun s => s.values[row]?
  | .delta rowId => delta.columns[m.columnIndex]?.bind fun d => d.inserts[rowId]?.map fun e => valueOf t e.2

/-- The entries, each with the row it comes from. -/
def taggedEntries (m : ColumnMerger) (segments : List (SegmentColumn t m.columnIndex)) (delta : DeltaStore) :
    List (SourceRow × Nat × Native t) :=
  (segments.zipIdx.flatMap fun s =>
    s.1.values.zipIdx.map fun v => (.segment s.2 v.2, s.1.segment.header.createdTs, v.1)) ++
  (delta.visitInserts m.columnIndex).map fun e => (.delta e.1, e.2.1.toNat, valueOf t e.2.2)

theorem map_snd_taggedEntries (segments : List (SegmentColumn t m.columnIndex)) (delta : DeltaStore) :
    (m.taggedEntries segments delta).map Prod.snd = m.entries segments (some delta) := by
  rw [taggedEntries, entries, List.map_append, List.map_map, List.map_flatMap]
  congr 1
  conv_rhs => rw [← List.zipIdx_map_fst 0 segments, List.flatMap_map]
  refine List.flatMap_congr fun s _ => ?_
  conv_rhs => rw [← List.zipIdx_map_fst 0 s.1.values]
  rw [List.map_map, List.map_map]
  rfl

theorem mem_taggedEntries {segments : List (SegmentColumn t m.columnIndex)} {delta : DeltaStore}
    {x : SourceRow × Nat × Native t} (hx : x ∈ m.taggedEntries segments delta) :
    m.valueAt segments delta x.1 = some x.2.2 := by
  rcases List.mem_append.mp hx with hx | hx
  · obtain ⟨s, hs, hx⟩ := List.mem_flatMap.mp hx
    obtain ⟨v, hv, rfl⟩ := List.mem_map.mp hx
    have hsegment := List.mem_zipIdx_iff_getElem?.mp hs
    have hvalue := List.mem_zipIdx_iff_getElem?.mp hv
    simp only [valueAt, hsegment, Option.bind_some, hvalue]
  · obtain ⟨e, he, rfl⟩ := List.mem_map.mp hx
    rw [DeltaStore.visitInserts] at he
    cases hd : delta.columns[m.columnIndex]? with
    | none => simp [hd] at he
    | some d =>
      rw [hd] at he
      simp only [valueAt, hd, Option.bind_some, Std.TreeMap.mem_toList_iff_getElem?_eq_some.mp he, Option.map_some]

/-- Every row is tagged that has a value. -/
theorem mem_tags {segments : List (SegmentColumn t m.columnIndex)} {delta : DeltaStore} {source : SourceRow} :
    source ∈ (m.taggedEntries segments delta).map Prod.fst ↔ (m.valueAt segments delta source).isSome := by
  constructor
  · intro hsource
    obtain ⟨x, hx, rfl⟩ := List.mem_map.mp hsource
    rw [mem_taggedEntries hx]
    rfl
  · intro hvalue
    rw [taggedEntries, List.map_append, List.mem_append]
    cases source with
    | segment number row =>
      obtain ⟨value, hvalue⟩ := Option.isSome_iff_exists.mp hvalue
      obtain ⟨s, hs, hv⟩ := Option.bind_eq_some_iff.mp hvalue
      refine .inl (List.mem_map.mpr ⟨(.segment number row, s.segment.header.createdTs, value), ?_, rfl⟩)
      exact List.mem_flatMap.mpr ⟨(s, number), List.mem_zipIdx_iff_getElem?.mpr hs,
        List.mem_map.mpr ⟨(value, row), List.mem_zipIdx_iff_getElem?.mpr hv, rfl⟩⟩
    | delta rowId =>
      obtain ⟨value, hvalue⟩ := Option.isSome_iff_exists.mp hvalue
      obtain ⟨d, hd, hv⟩ := Option.bind_eq_some_iff.mp hvalue
      obtain ⟨e, he, -⟩ := Option.map_eq_some_iff.mp hv
      refine .inr ?_
      rw [DeltaStore.visitInserts, hd, List.map_map]
      exact List.mem_map.mpr ⟨(rowId, e), Std.TreeMap.mem_toList_iff_getElem?_eq_some.mpr he, rfl⟩

/-- No row is tagged twice. -/
theorem nodup_tags (segments : List (SegmentColumn t m.columnIndex)) (delta : DeltaStore) :
    ((m.taggedEntries segments delta).map Prod.fst).Nodup := by
  have hrows : ∀ (values : List (Native t)) (number createdTs : Nat),
      (values.zipIdx.map fun v => ((.segment number v.2, createdTs, v.1) : SourceRow × Nat × Native t)).map Prod.fst =
        (List.range values.length).map (.segment number) := by
    intro values number createdTs
    rw [List.map_map, List.range_eq_range', ← List.zipIdx_map_snd 0 values, List.map_map]
    rfl
  have hdelta : ((delta.visitInserts m.columnIndex).map Prod.fst).Nodup := by
    rw [DeltaStore.visitInserts]
    cases delta.columns[m.columnIndex]? with
    | none => exact List.nodup_nil
    | some d => exact List.pairwise_map.mpr (d.inserts_ascending.imp fun h heq => by simp [heq] at h)
  rw [taggedEntries, List.map_append, List.map_flatMap]
  simp only [hrows]
  refine List.nodup_append.mpr ⟨List.nodup_flatMap.mpr ⟨fun s _ => ?_, ?_⟩, ?_, ?_⟩
  · exact List.nodup_range.map fun i j hij => by cases hij; rfl
  · have hnumbers : segments.zipIdx.Pairwise fun s s' => s.2 ≠ s'.2 := by
      rw [← List.pairwise_map (f := Prod.snd), List.zipIdx_map_snd]
      exact List.nodup_range'
    refine hnumbers.imp fun {s s'} hne source hsource hsource' => ?_
    obtain ⟨i, -, rfl⟩ := List.mem_map.mp hsource
    obtain ⟨j, -, hj⟩ := List.mem_map.mp hsource'
    exact hne (SourceRow.segment.inj hj).1.symm
  · rw [List.map_map]
    show ((delta.visitInserts m.columnIndex).map (SourceRow.delta ∘ Prod.fst)).Nodup
    rw [← List.map_map]
    exact hdelta.map fun r r' hr => by cases hr; rfl
  · intro source hsource source' hsource' heq
    obtain ⟨s, -, hs⟩ := List.mem_flatMap.mp hsource
    obtain ⟨i, -, rfl⟩ := List.mem_map.mp hs
    subst heq
    rw [List.map_map] at hsource'
    obtain ⟨e, -, he⟩ := List.mem_map.mp hsource'
    cases he

/-- A stable sort by a key moves lists alike whose keys and other labels agree. -/
theorem sorted_tags {t' : DataType} {m' : ColumnMerger} {segments : List (SegmentColumn t m.columnIndex)}
    {segments' : List (SegmentColumn t' m'.columnIndex)} {delta : DeltaStore}
    (hsegments : segments.map SegmentColumn.segment = segments'.map SegmentColumn.segment)
    (hdelta : SameStamps delta m.columnIndex m'.columnIndex) :
    ((m.taggedEntries segments delta).insertionSort fun x y => x.2.1 ≤ y.2.1).map Prod.fst =
      ((m'.taggedEntries segments' delta).insertionSort fun x y => x.2.1 ≤ y.2.1).map Prod.fst := by
  have hkeys : ∀ {t : DataType} {m : ColumnMerger} (segments : List (SegmentColumn t m.columnIndex)),
      (m.taggedEntries segments delta).map (fun x => (x.1, x.2.1)) =
        ((segments.map SegmentColumn.segment).zipIdx.flatMap fun s =>
          (List.range s.1.numRows).map fun row => (.segment s.2 row, s.1.header.createdTs)) ++
        ((delta.visitInserts m.columnIndex).map fun e => (e.1, e.2.1)).map fun e => (.delta e.1, e.2.toNat) := by
    intro t m segments
    rw [taggedEntries, List.map_append, List.map_map, List.map_map, List.map_flatMap, List.zipIdx_map,
      List.flatMap_map]
    congr 1
    refine List.flatMap_congr fun s _ => ?_
    show _ = (List.range s.1.segment.numRows).map _
    rw [List.map_map, ← s.1.full, List.range_eq_range', ← List.zipIdx_map_snd 0 s.1.values, List.map_map]
    rfl
  have hsort : ∀ {t : DataType} (l : List (SourceRow × Nat × Native t)),
      (l.insertionSort fun x y => x.2.1 ≤ y.2.1).map Prod.fst =
        ((l.map fun x => (x.1, x.2.1)).insertionSort fun x y => x.2 ≤ y.2).map Prod.fst := by
    intro t l
    rw [← List.map_insertionSort (fun x y : SourceRow × Nat × Native t => x.2.1 ≤ y.2.1) (fun x y => x.2 ≤ y.2)
      (fun x => (x.1, x.2.1)) l fun _ _ _ _ => Iff.rfl, List.map_map]
    rfl
  rw [hsort, hsort, hkeys, hkeys, hsegments, hdelta.visitInserts]

/-- The values in the order of the sort, each with its row. -/
theorem mergeColumn_tagged (ht : t.isNumeric = true) (segments : List (SegmentColumn t m.columnIndex))
    (delta : DeltaStore) (outStats : ColumnStats) :
    ∃ values stats,
      m.mergeColumn t (segments.map SegmentColumn.segment) (some delta) outStats =
        .ok (storeWords t.typeSize values, stats) ∧
      values.map some = (((m.taggedEntries segments delta).insertionSort fun x y => x.2.1 ≤ y.2.1).map Prod.fst).map
        (m.valueAt segments delta) := by
  obtain ⟨stats, hmerge⟩ := mergeColumn_sorted ht segments (some delta) outStats
  refine ⟨_, stats, hmerge, ?_⟩
  rw [← map_snd_taggedEntries, ← List.map_insertionSort (fun x y : SourceRow × Nat × Native t => x.2.1 ≤ y.2.1)
    (fun a b => a.1 ≤ b.1) Prod.snd _ fun _ _ _ _ => Iff.rfl, List.map_map, List.map_map, List.map_map]
  refine List.map_congr_left fun x hx => ?_
  exact (mem_taggedEntries ((List.mem_insertionSort _).mp hx)).symm

/-- **Columns merged one at a time stay aligned**: there is one list of rows, with every
row of the segments and of the store once, whose values in the one column are the one
merge's and whose values in the other are the other merge's. -/
theorem mergeColumn_aligned (a b : ColumnMerger) (ta tb : DataType) (hta : ta.isNumeric = true)
    (htb : tb.isNumeric = true) (columnsA : List (SegmentColumn ta a.columnIndex))
    (columnsB : List (SegmentColumn tb b.columnIndex))
    (hsegments : columnsA.map SegmentColumn.segment = columnsB.map SegmentColumn.segment)
    (numColumns : Nat) (flushThreshold : UInt64) (ha : a.columnIndex < numColumns) (hb : b.columnIndex < numColumns)
    (writes : List Write) (hwrites : ∀ w ∈ writes, w.Complete numColumns ∧ w ≠ .clear)
    (outStatsA outStatsB : ColumnStats) :
    let segments := columnsA.map SegmentColumn.segment
    let delta := (DeltaStore.new numColumns flushThreshold).run writes
    ∃ valuesA statsA valuesB statsB, ∃ sources : List SourceRow,
      a.mergeColumn ta segments (some delta) outStatsA = .ok (storeWords ta.typeSize valuesA, statsA) ∧
      b.mergeColumn tb segments (some delta) outStatsB = .ok (storeWords tb.typeSize valuesB, statsB) ∧
      valuesA.length = valuesB.length ∧
      valuesA.map some = sources.map (a.valueAt columnsA delta) ∧
      valuesB.map some = sources.map (b.valueAt columnsB delta) ∧
      sources.Nodup ∧
      ∀ source, source ∈ sources ↔ (a.valueAt columnsA delta source).isSome := by
  have hdelta := SameStamps.run ha hb flushThreshold hwrites
  generalize (DeltaStore.new numColumns flushThreshold).run writes = delta at hdelta ⊢
  obtain ⟨valuesA, statsA, hmergeA, hvaluesA⟩ := mergeColumn_tagged hta columnsA delta outStatsA
  obtain ⟨valuesB, statsB, hmergeB, hvaluesB⟩ := mergeColumn_tagged htb columnsB delta outStatsB
  rw [← sorted_tags hsegments hdelta] at hvaluesB
  have hperm := (List.perm_insertionSort (fun x y => x.2.1 ≤ y.2.1) (a.taggedEntries columnsA delta)).map Prod.fst
  refine ⟨valuesA, statsA, valuesB, statsB, _, hmergeA, hsegments ▸ hmergeB, ?_, hvaluesA, hvaluesB,
    hperm.nodup_iff.mpr (nodup_tags columnsA delta), fun source => hperm.mem_iff.trans mem_tags⟩
  have hlenA := congrArg List.length hvaluesA
  have hlenB := congrArg List.length hvaluesB
  simp only [List.length_map] at hlenA hlenB
  rw [hlenA, hlenB]

/-- A column of two rows, and one of twice as many bytes. -/
def pairSegment : Segment :=
  (writeSegment [.addColumn .int32 [3, 1] [false, false] .plain,
    .addColumn .int64 [30, 10] [false, false] .plain]).toOption.getD ⟨{}, []⟩

def pairFirst : SegmentColumn .int32 0 where
  segment := pairSegment
  values := [3, 1]
  full := rfl
  read := by decide +kernel

def pairSecond : SegmentColumn .int64 1 where
  segment := pairSegment
  values := [30, 10]
  full := rfl
  read := by decide +kernel

/-- A row under a timestamp of its own, one under the store's and a deleted one. -/
def pairWrites : List Write := [.insert 7 [[9], [90]] 5, .insert 4 [[8], [80]] 0, .delete 7 0]

/-- The segment twice, and the three writes. -/
theorem pair_aligned :
    let a : ColumnMerger := {columnType := .int32, encodingType := .plain, columnIndex := 0}
    let b : ColumnMerger := {columnType := .int64, encodingType := .plain, columnIndex := 1}
    let segments := [pairSegment, pairSegment]
    let delta := (DeltaStore.new 2 100).run pairWrites
    ∃ valuesA statsA valuesB statsB, ∃ sources : List SourceRow,
      a.mergeColumn .int32 segments (some delta) {} = .ok (storeWords 4 valuesA, statsA) ∧
      b.mergeColumn .int64 segments (some delta) {} = .ok (storeWords 8 valuesB, statsB) ∧
      valuesA.length = valuesB.length ∧
      valuesA.map some = sources.map (a.valueAt [pairFirst, pairFirst] delta) ∧
      valuesB.map some = sources.map (b.valueAt [pairSecond, pairSecond] delta) ∧
      sources.Nodup ∧
      ∀ source, source ∈ sources ↔ (a.valueAt [pairFirst, pairFirst] delta source).isSome := by
  have hwrites : ∀ w ∈ pairWrites, w.Complete 2 ∧ w ≠ .clear := by
    simp [pairWrites, Write.Complete]
  exact mergeColumn_aligned {columnType := .int32, encodingType := .plain, columnIndex := 0}
    {columnType := .int64, encodingType := .plain, columnIndex := 1} .int32 .int64 rfl rfl
    [pairFirst, pairFirst] [pairSecond, pairSecond] rfl 2 100 (by decide) (by decide) pairWrites
    hwrites {} {}

end ColumnMerger

end ColumnarStore.Merger
