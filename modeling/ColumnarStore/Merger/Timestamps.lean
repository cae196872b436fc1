import ColumnarStore.Merger.ColumnMerger
import ColumnarStore.Segment.RoundTrip

/-! Merging in the order of the segments' timestamps.

`SetTimestamp` sets a member that only the constructor has read, so every header says 0
and the sort leaves the segments in the order of the list. -/
namespace ColumnarStore
open Foundation

/-! ### The timestamp of a written segment -/

theorem WriterCall.createdTs_apply {w w' : SegmentWriter} {call : WriterCall} (h : call.apply w = .ok w') :
    w'.createdTs = w.createdTs := by
  cases call with
  | addColumn t values nulls encoding =>
    obtain ⟨buffer, -, h⟩ := bind_eq_ok.mp h
    obtain ⟨stats, -, h⟩ := bind_eq_ok.mp h
    cases h
    rfl
  | _ =>
    cases h
    rfl

theorem SegmentWriter.createdTs_run {w w' : SegmentWriter} {calls : List WriterCall}
    (h : run w calls = .ok w') : w'.createdTs = w.createdTs :=
  foldlM_preserves (fun _ _ _ _ hsame happly => (WriterCall.createdTs_apply happly).trans hsame) rfl h

namespace Merger

/-- A writer after calls that add, as column `col`, plain integers, at least one. -/
structure StampedSegment (t : DataType) (col : Nat) where
  calls : List WriterCall
  writer : SegmentWriter
  run : SegmentWriter.run {} calls = .ok writer
  integer : t.isInteger = true
  values : List (Native t)
  nulls : List Bool
  added : (addedColumns calls)[col]? = some ⟨t, values, nulls, .plain⟩
  nonempty : values ≠ []

namespace StampedSegment
variable {t : DataType} {col : Nat} (s : StampedSegment t col)

/-- The timestamp set last. -/
def timestamp : Nat := s.writer.timestamp

def segment : Segment := s.writer.finish

/-- What the column of the segment reads as. -/
def Reads (values : List (Native t)) : Prop := ColumnMerger.readColumn t s.segment col = .ok values

theorem createdTs : s.segment.header.createdTs = 0 := SegmentWriter.createdTs_run s.run

/-- In a file below 2^32 bytes a column of full length reads as it was written. -/
theorem reads_values (haddr : s.writer.Addressable) (hrows : s.values.length = s.writer.rowCount) :
    s.Reads s.values := by
  let c : IntegerColumn :=
    { type := t, integer := s.integer, encoding := .plain, codec := rfl, values := s.values
      nulls := List.replicate s.values.length false, flagged := List.length_replicate }
  obtain ⟨wc, hwc, hwritten⟩ := (SegmentWriter.run_written s.run).column s.added
  have hwritten' : c.added.WrittenAs wc := ⟨hwritten.type, hwritten.encoding, hwritten.buffer⟩
  have hget := c.getColumn_of_restored hwc (haddr.pointed hwc).1 hwritten' (Encoding.restored_plain s.values)
  have hdata : s.segment.getColumnData col 0 s.segment.numRows = .ok (storeWords t.typeSize s.values) :=
    Segment.getColumnData_of_getColumn (DataType.isNumeric_of_isInteger s.integer) hget hrows
  exact ColumnMerger.readColumn_eq ⟨s.segment, s.values, hrows, hdata⟩

end StampedSegment

/-! ### The order of the merged values -/

namespace ColumnMerger
variable {t : DataType} {m : ColumnMerger} {first second : StampedSegment t m.columnIndex}

/-- Of two segments in a list the values of the one with the smaller timestamp come first. -/
def MergesByTimestamp (m : ColumnMerger) (first second : StampedSegment t m.columnIndex)
    (outStats : ColumnStats) : Prop :=
  ∃ values₁ values₂ stats, first.Reads values₁ ∧ second.Reads values₂ ∧
    m.mergeColumn t [first.segment, second.segment] none outStats = .ok (storeWords t.typeSize
      (if first.timestamp ≤ second.timestamp then values₁ ++ values₂ else values₂ ++ values₁), stats)

/-- The values come in the order of the list. -/
theorem mergeColumn_listOrder {values₁ values₂ : List (Native t)} (hfirst : first.Reads values₁)
    (hsecond : second.Reads values₂) (outStats : ColumnStats) :
    ∃ stats, m.mergeColumn t [first.segment, second.segment] none outStats =
      .ok (storeWords t.typeSize (values₁ ++ values₂), stats) := by
  have hsegments : [first.segment, second.segment].mapM (m.segmentValues t) =
      .ok [values₁.map fun value => (0, value), values₂.map fun value => (0, value)] := by
    rw [mapM_eq_ok]
    refine .cons ?_ (.cons ?_ .nil)
    · rw [segmentValues, hfirst, first.createdTs]
      rfl
    · rw [segmentValues, hsecond, second.createdTs]
      rfl
  obtain ⟨stats, hmerge⟩ := mergeColumn_of_segmentValues (DataType.isNumeric_of_isInteger first.integer) hsegments
    none outStats
  refine ⟨stats, hmerge.trans ?_⟩
  have hall : [values₁.map fun value => (0, value), values₂.map fun value => (0, value)].flatten ++
      m.insertedValues t none = (values₁ ++ values₂).map fun value => (0, value) := by
    simp [insertedValues]
  have hsorted : ((values₁ ++ values₂).map fun value => (0, value)).Pairwise fun a b : Nat × Native t => a.1 ≤ b.1 :=
    List.pairwise_map.mpr (List.pairwise_of_forall fun _ _ => le_rfl)
  rw [hall, hsorted.insertionSort_eq, List.map_map]
  congr 4
  exact List.map_id _

theorem mergesByTimestamp_iff (outStats : ColumnStats) : m.MergesByTimestamp first second outStats ↔
    ∃ values₁ values₂, first.Reads values₁ ∧ second.Reads values₂ ∧
      (first.timestamp ≤ second.timestamp ∨ values₁ ++ values₂ = values₂ ++ values₁) := by
  constructor
  · intro h
    obtain ⟨values₁, values₂, stats, hfirst, hsecond, hmerge⟩ := h
    obtain ⟨stats', hmerge'⟩ := mergeColumn_listOrder hfirst hsecond outStats
    refine ⟨values₁, values₂, hfirst, hsecond, ?_⟩
    by_cases horder : first.timestamp ≤ second.timestamp
    · exact .inl horder
    · rw [if_neg horder, hmerge'] at hmerge
      exact .inr (storeWords_injective t.typeSize_pos (congrArg Prod.fst (Except.ok.inj hmerge)))
  · intro h
    obtain ⟨values₁, values₂, hfirst, hsecond, horder⟩ := h
    obtain ⟨stats, hmerge⟩ := mergeColumn_listOrder hfirst hsecond outStats
    refine ⟨values₁, values₂, stats, hfirst, hsecond, hmerge.trans ?_⟩
    split
    · rfl
    · next hlate => rw [horder.resolve_left hlate]

/-- **Two segments are merged in the order of their timestamps exactly when they stand in
that order in the list** or it makes no difference. -/
theorem follows_timestamps_iff (m : ColumnMerger) (t : DataType) (first second : StampedSegment t m.columnIndex)
    (outStats : ColumnStats) :
    (m.MergesByTimestamp first second outStats ↔
      ∃ values₁ values₂, first.Reads values₁ ∧ second.Reads values₂ ∧
        (first.timestamp ≤ second.timestamp ∨ values₁ ++ values₂ = values₂ ++ values₁)) ∧
    ∀ s ∈ [first, second], s.writer.Addressable → s.values.length = s.writer.rowCount → s.Reads s.values := by
  exact ⟨mergesByTimestamp_iff outStats, fun s _ => s.reads_values⟩

/-- Calls that set a timestamp and add a column of a single value. -/
def oneValue (timestamp : Nat) (value : Native .int32) : List WriterCall :=
  [.setTimestamp timestamp, .addColumn .int32 [value] [false] .plain]

def writerOf (calls : List WriterCall) : SegmentWriter := (SegmentWriter.run {} calls).toOption.getD {}

def early : StampedSegment .int32 0 where
  calls := oneValue 1 6
  writer := writerOf (oneValue 1 6)
  run := rfl
  integer := DataType.isInteger_int32
  values := [6]
  nulls := [false]
  added := rfl
  nonempty := List.cons_ne_nil _ _

def late : StampedSegment .int32 0 where
  calls := oneValue 2 5
  writer := writerOf (oneValue 2 5)
  run := rfl
  integer := DataType.isInteger_int32
  values := [5]
  nulls := [false]
  added := rfl
  nonempty := List.cons_ne_nil _ _

theorem early_late_follow :
    let m : ColumnMerger := {columnType := .int32, encodingType := .plain}
    (m.MergesByTimestamp early late {} ↔
      ∃ values₁ values₂, early.Reads values₁ ∧ late.Reads values₂ ∧
        (early.timestamp ≤ late.timestamp ∨ values₁ ++ values₂ = values₂ ++ values₁)) ∧
    ∀ s ∈ [early, late], s.writer.Addressable → s.values.length = s.writer.rowCount → s.Reads s.values :=
  follows_timestamps_iff {columnType := .int32, encodingType := .plain} .int32 early late {}

/-- The later of the two stands first in the list and stays there. -/
theorem late_early_not_follow :
    ¬ ({columnType := .int32, encodingType := .plain} : ColumnMerger).MergesByTimestamp late early {} := by
  have hlate : late.Reads [5] := late.reads_values (by decide +kernel) rfl
  have hearly : early.Reads [6] := early.reads_values (by decide +kernel) rfl
  rw [mergesByTimestamp_iff]
  intro h
  obtain ⟨values₁, values₂, hlate', hearly', horder⟩ := h
  cases Except.ok.inj (hlate.symm.trans hlate')
  cases Except.ok.inj (hearly.symm.trans hearly')
  rcases horder with htime | hvalues
  · exact absurd htime (by decide)
  · exact absurd hvalues (by decide)

end ColumnMerger

end Merger

end ColumnarStore
