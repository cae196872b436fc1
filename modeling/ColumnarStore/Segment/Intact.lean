import ColumnarStore.Segment.Format

/-! Segments that can be scanned.

A scan reads every column, zone map and filter of a segment before it looks at a row,
and then every column at every row. An `IntactSegment` is a segment together with what
these reads return, each column being numeric and as long as the segment. Its row
number `r` is a number for each column (`row`). -/
namespace ColumnarStore
open Foundation Encoding

/-! ### What reading a column tells -/

theorem Column.decode_spec {col col' : Column} {decoder : Decoder} {data : List UInt8}
    (h : col.decode decoder data = .ok col') :
    col'.type = col.type ∧ col'.vec.data.length = data.length / col.type.typeSize := by
  obtain ⟨memory, -, h⟩ := bind_eq_ok.mp h
  obtain ⟨values, hvalues, h⟩ := bind_eq_ok.mp h
  cases h
  exact ⟨rfl, length_loadWords (orFault_eq_ok.mp hvalues)⟩

namespace Segment
variable {s : Segment} {c : Nat} {col : Column}

/-- A column that can be read has the type of its entry and fewer than 2^32 values. -/
theorem getColumn_spec (h : s.getColumn c = .ok col) :
    s.columnType c = .ok col.type ∧ col.vec.data.length < 2 ^ 32 := by
  obtain ⟨colMeta, hmeta, h⟩ := bind_eq_ok.mp h
  obtain ⟨data, hdata, h⟩ := bind_eq_ok.mp h
  obtain ⟨fresh, hfresh, h⟩ := bind_eq_ok.mp h
  obtain ⟨htype, hlen⟩ := Column.decode_spec h
  have hcreate : fresh.type = colMeta.type := by
    have hsome := orFault_eq_ok.mp hfresh
    unfold Column.create at hsome
    split at hsome
    · cases hsome
    · cases hsome
      rfl
  constructor
  · rw [columnType, hmeta, htype, hcreate]
    rfl
  · rw [hlen]
    calc data.length / fresh.type.typeSize ≤ data.length := Nat.div_le_self _ _
      _ = colMeta.size := readBytes_length hdata
      _ < 2 ^ 32 := colMeta.size_lt

/-- A column that reads as numbers, one for each row, is copied whole. -/
theorem getColumnData_of_getColumn {t : DataType} {values : List (Native t)} (ht : t.isNumeric = true)
    (hget : s.getColumn c = .ok (.ofValues t values)) (hrows : values.length = s.numRows) :
    s.getColumnData c 0 s.numRows = .ok (storeWords t.typeSize values) := by
  have htype : s.columnType c = .ok t := (getColumn_spec hget).1
  have hnumeric : (t.isInteger || t.isFloatingPoint) = true := ht
  have hread : (Column.ofValues t values).readValues 0 s.numRows = .ok (storeWords t.typeSize values) := by
    rw [Column.readValues, if_pos (by rw [Nat.zero_add, ← hrows]; exact le_rfl)]
    show Except.ok (storeWords t.typeSize ((values.drop 0).take s.numRows)) = _
    rw [List.drop_zero, List.take_of_length_le hrows.le]
  rw [getColumnData, htype, hget]
  simp only [bind_ok, hnumeric, if_true]
  exact hread

end Segment

/-! ### Intact segments -/

structure IntactSegment where
  segment : Segment
  columns : List Column
  zoneMaps : List ZoneMap
  bloomFilters : List BloomFilter
  columns_read : (List.range segment.numColumns).mapM segment.getColumn = .ok columns
  zoneMaps_read : (List.range segment.numColumns).mapM segment.getZoneMap = .ok zoneMaps
  bloomFilters_read : (List.range segment.numColumns).mapM segment.getBloomFilter = .ok bloomFilters
  numeric : ∀ col ∈ columns, col.type.isNumeric = true
  full : ∀ col ∈ columns, col.vec.data.length = segment.numRows

namespace IntactSegment
variable (s : IntactSegment)

def numRows : Nat := s.segment.numRows

/-- The value of column `c` in row `r`, widened. -/
def cell (r c : Nat) : Int64Bits :=
  match s.columns[c]? with
  | none => 0
  | some col => (col.vec.data.getD r 0).toInt64 col.type

/-- Row `r`, as the number each column holds there. -/
def row (r : Nat) (c : Nat) : Int := (s.cell r c).toInt

theorem length_columns : s.columns.length = s.segment.numColumns := (mapM_range_eq_ok.mp s.columns_read).1

variable {s} {c : Nat} {col : Column} (hcol : s.columns[c]? = some col)
include hcol

theorem getColumn : s.segment.getColumn c = .ok col := (mapM_range_eq_ok.mp s.columns_read).2 c col hcol

theorem lt_numColumns : c < s.segment.numColumns := by
  rw [← s.length_columns]
  exact (List.getElem?_eq_some_iff.mp hcol).1

theorem columnType : s.segment.columnType c = .ok col.type := (Segment.getColumn_spec (getColumn hcol)).1

theorem length_data : col.vec.data.length = s.numRows := s.full col (List.mem_of_getElem? hcol)

theorem numRows_lt : s.numRows < 2 ^ 32 := by
  rw [← length_data hcol]
  exact (Segment.getColumn_spec (getColumn hcol)).2

theorem cell_eq (r : Nat) : s.cell r c = (col.vec.data.getD r 0).toInt64 col.type := by
  rw [cell, hcol]

end IntactSegment

end ColumnarStore
