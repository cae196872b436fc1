import ColumnarStore.Segment.Intact
import ColumnarStore.Segment.RoundTrip

/-! Tables that can be scanned.

A table of integer columns that reads back column for column is an intact segment without
zone maps and filters (`WrittenBy.exists_segmentOf`). So is a table whose encoded sizes give
their counts, if no field of the header is cut (`exists_segmentOf`). -/
namespace ColumnarStore
open Foundation Encoding

namespace IntegerTable
variable {t : IntegerTable}

/-- The columns as they are read back. -/
def readColumns (t : IntegerTable) : List Column := t.columns.map fun c => .ofValues c.type c.values

/-- A segment with the columns of the table. -/
structure ShownBy (t : IntegerTable) (s : IntactSegment) : Prop where
  columns : s.columns = t.readColumns
  numRows : t.columns ≠ [] → s.numRows = t.rows

/-- The segment the table was written to. -/
structure SegmentOf (t : IntegerTable) (s : IntactSegment) : Prop extends t.ShownBy s where
  zoneMaps : ∀ zm ∈ s.zoneMaps, zm.entries = []
  bloomFilters : ∀ bf ∈ s.bloomFilters, bf = .empty

namespace WrittenBy
variable {w : SegmentWriter} (h : t.WrittenBy w)
include h

theorem numColumns_finish : w.finish.numColumns = t.columns.length := h.columns.length_eq.symm

/-- No zone map and no filter was added. -/
theorem indexes_finish {i : Nat} (hi : i < w.columns.length) :
    w.finish.getZoneMap i = .ok {} ∧ w.finish.getBloomFilter i = .ok .empty := by
  have hc := List.getElem?_eq_getElem hi
  have hzone : w.zoneMapBytes i = [] := by
    rw [SegmentWriter.zoneMapBytes, h.zoneMaps]
    rfl
  have hbloom : w.bloomBytes i = [] := by
    rw [SegmentWriter.bloomBytes, h.bloomFilters]
    rfl
  constructor
  · rw [SegmentWriter.getZoneMap_pointed hc (.inl hzone), if_pos hzone]
  · rw [SegmentWriter.getBloomFilter_pointed hc (.inl hbloom), if_pos hbloom]

/-- A table whose columns read back is a segment that can be scanned. -/
theorem exists_segmentOf (hread : ∀ (i : Nat) (c : IntegerColumn), t.columns[i]? = some c →
    w.finish.getColumn i = .ok (.ofValues c.type c.values)) :
    ∃ s : IntactSegment, s.segment = w.finish ∧ t.SegmentOf s := by
  have hcolumns : (List.range w.finish.numColumns).mapM w.finish.getColumn = .ok t.readColumns := by
    refine mapM_range_eq_ok.mpr ⟨by rw [readColumns, List.length_map, h.numColumns_finish], fun i col hcol => ?_⟩
    rw [readColumns, List.getElem?_map] at hcol
    obtain ⟨c, hc, rfl⟩ := Option.map_eq_some_iff.mp hcol
    exact hread i c hc
  have hzoneMaps := mapM_ok fun i hi => (h.indexes_finish (List.mem_range.mp hi)).1
  have hblooms := mapM_ok fun i hi => (h.indexes_finish (List.mem_range.mp hi)).2
  have hrows : t.columns ≠ [] → w.finish.numRows = t.rows := fun hne => h.rowCount.trans (if_neg hne)
  refine ⟨⟨w.finish, t.readColumns, _, _, hcolumns, hzoneMaps, hblooms, fun col hcol => ?_, fun col hcol => ?_⟩, rfl,
    ⟨rfl, hrows⟩, fun zm hzm => ?_, fun bf hbf => ?_⟩
  · obtain ⟨c, -, rfl⟩ := List.mem_map.mp hcol
    exact DataType.isNumeric_of_isInteger c.integer
  · obtain ⟨c, hc, rfl⟩ := List.mem_map.mp hcol
    exact (t.equalLength c hc).trans (hrows (List.ne_nil_of_mem hc)).symm
  · obtain ⟨i, -, rfl⟩ := List.mem_map.mp hzm
    rfl
  · obtain ⟨i, -, rfl⟩ := List.mem_map.mp hbf
    rfl

end WrittenBy

/-- Written out, a table whose columns come back is the segment of what the writer has. -/
theorem exists_segmentOf (hentries : t.EntriesFit) (hfit : t.ColumnsFit) : ∃ (w : SegmentWriter) (s : IntactSegment),
    SegmentWriter.run {} t.calls = .ok w ∧ s.segment = w.finish ∧ t.SegmentOf s := by
  obtain ⟨w, hrun, hw⟩ := hfit.written
  obtain ⟨s, hs, hof⟩ := hw.exists_segmentOf fun i c hc =>
    hw.getColumn_of_restored hentries hc (hfit.restored (List.mem_of_getElem? hc))
  exact ⟨w, s, hrun, hs, hof⟩

end IntegerTable

end ColumnarStore
