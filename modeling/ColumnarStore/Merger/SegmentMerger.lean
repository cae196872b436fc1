import ColumnarStore.Merger.ColumnMerger
import ColumnarStore.Segment.Writer

/-! Merging segments.

`ExecuteMerge` has a branch for no input segment, one for a single one and one for
several. None of them reads the delta store of its task, so a task with a live row
never comes out with that row (`executeMerge_loses_delta`). -/
namespace ColumnarStore.Merger
open Foundation Delta

structure MergeTask where
  inputSegments : List Segment
  deltaStore : Option DeltaStore := none
  maxTimestamp : Nat := 0

namespace SegmentMerger

/-- The columns of the segments one behind the other, each in a region of as many zeroed
bytes as the segment has values. -/
def gatherColumn (type : DataType) (col : Nat) (segments : List Segment) : Outcome (List UInt8) :=
  segments.foldlM (fun allData seg => do
    let size := seg.numRows * type.typeSize
    let bytes ← seg.getColumnData col 0 seg.numRows
    if size < bytes.length then .error .outOfBounds
    else return allData ++ (bytes ++ List.replicate (size - bytes.length) 0)) []

/-- One turn of the loop over the columns of the first segment; columns of a type that is
not numeric are left out. -/
def mergeColumn (first : Segment) (segments : List Segment) (writer : SegmentWriter) (col : Nat) :
    Outcome SegmentWriter := do
  let colMeta ← first.columnMeta col
  let allData ← gatherColumn colMeta.type col segments
  match colMeta.type with
  | .int32 => addMerged .int32 allData colMeta.encoding
  | .int64 => addMerged .int64 allData colMeta.encoding
  | .float => addMerged .float allData colMeta.encoding
  | .double => addMerged .double allData colMeta.encoding
  | _ => return writer
where
  addMerged (t : DataType) (allData : List UInt8) (encoding : EncodingType) : Outcome SegmentWriter := do
    let count := allData.length / t.typeSize
    let values ← orFault .outOfBounds (loadWords t.typeSize count allData)
    writer.addColumn t values (List.replicate count false) encoding

def executeMerge (task : MergeTask) : Outcome Segment :=
  match task.inputSegments with
  | [] => .ok (SegmentWriter.setTimestamp {} task.maxTimestamp).finish
  | [segment] => .ok segment
  | first :: rest => do
    let writer := SegmentWriter.setTimestamp {} task.maxTimestamp
    let writer ← (List.range first.numColumns).foldlM (mergeColumn first (first :: rest)) writer
    return writer.finish

end SegmentMerger

/-! ### What a merge is for -/

/-- The rows of a column that are inserted and not deleted, with their data. -/
def liveRows (delta : DeltaStore) (col : Nat) : List (RowId × Bytes) :=
  match delta.columns[col]? with
  | none => []
  | some d => (d.inserts.toList.filter fun e => d.live e.1 e.2.1).map fun e => (e.1, e.2.2)

/-- A column's values, each as its bytes. -/
def columnValues (seg : Segment) (col : Nat) : Outcome (List (List UInt8)) := do
  let column ← seg.getColumn col
  return column.vec.data.map (storeWord column.type.typeSize)

namespace MergeTask

def inputRows (task : MergeTask) : Nat := (task.inputSegments.map Segment.numRows).sum

/-- In every column the merged segment has as many rows as the input segments and the live
ones of the delta store together, and the values of both, each once. -/
def KeepsAll (task : MergeTask) : Prop :=
  ∃ merged, SegmentMerger.executeMerge task = .ok merged ∧
    ∀ delta ∈ task.deltaStore, ∀ col < delta.numColumns,
      merged.numRows = task.inputRows + (liveRows delta col).length ∧
      ∃ values inputs type,
        merged.columnType col = .ok type ∧ columnValues merged col = .ok values ∧
        task.inputSegments.mapM (columnValues · col) = .ok inputs ∧
        values.Perm (inputs.flatten ++ (liveRows delta col).map fun e =>
          storeWord type.typeSize (ColumnMerger.valueOf type e.2))

end MergeTask

/-! ### Rows -/

namespace SegmentMerger

theorem length_gatherColumn {type : DataType} {col : Nat} {segments : List Segment} {allData : List UInt8}
    (h : gatherColumn type col segments = .ok allData) :
    allData.length = (segments.map Segment.numRows).sum * type.typeSize := by
  induction segments using List.reverseRecOn generalizing allData with
  | nil =>
    cases h
    simp
  | append_singleton before seg ih =>
    rw [gatherColumn, List.foldlM_append] at h
    obtain ⟨prior, hprior, h⟩ := bind_eq_ok.mp h
    obtain ⟨next, hnext, h⟩ := bind_eq_ok.mp h
    cases h
    obtain ⟨bytes, -, hnext⟩ := bind_eq_ok.mp hnext
    split at hnext
    · cases hnext
    · next hfits =>
      cases hnext
      rw [List.length_append, ih hprior, List.length_append, List.length_replicate, List.map_append,
        List.sum_append, Nat.add_mul]
      simp only [List.map_cons, List.map_nil, List.sum_cons, List.sum_nil, Nat.add_zero]
      omega

theorem rowCount_addColumn {w w' : SegmentWriter} {t : DataType} {values : List (Native t)}
    {nulls : List Bool} {encoding : EncodingType} (h : w.addColumn t values nulls encoding = .ok w') :
    w'.rowCount = max w.rowCount values.length := by
  obtain ⟨buffer, -, h⟩ := bind_eq_ok.mp h
  obtain ⟨stats, -, h⟩ := bind_eq_ok.mp h
  cases h
  rfl

/-- A merged column is no longer than the segments together. -/
theorem rowCount_mergeColumn {first : Segment} {segments : List Segment} {w w' : SegmentWriter}
    {col : Nat} (h : mergeColumn first segments w col = .ok w')
    (hw : w.rowCount ≤ (segments.map Segment.numRows).sum) :
    w'.rowCount ≤ (segments.map Segment.numRows).sum := by
  obtain ⟨colMeta, -, h⟩ := bind_eq_ok.mp h
  obtain ⟨allData, hgather, h⟩ := bind_eq_ok.mp h
  have hlen := length_gatherColumn hgather
  have hadded : ∀ t : DataType, t = colMeta.type →
      mergeColumn.addMerged w t allData colMeta.encoding = .ok w' →
      w'.rowCount ≤ (segments.map Segment.numRows).sum := by
    intro t ht hadd
    obtain ⟨values, hvalues, hadd⟩ := bind_eq_ok.mp hadd
    have hcount := length_loadWords (orFault_eq_ok.mp hvalues)
    rw [rowCount_addColumn hadd, hcount, hlen, ht, Nat.mul_div_cancel _ colMeta.type.typeSize_pos]
    omega
  split at h
  · next htype => exact hadded _ htype.symm h
  · next htype => exact hadded _ htype.symm h
  · next htype => exact hadded _ htype.symm h
  · next htype => exact hadded _ htype.symm h
  · cases h
    exact hw

/-- The loop over the columns never makes the segment longer than the inputs together. -/
theorem rowCount_mergeColumns {first : Segment} {segments : List Segment} {cols : List Nat}
    {w w' : SegmentWriter} (h : cols.foldlM (mergeColumn first segments) w = .ok w')
    (hw : w.rowCount ≤ (segments.map Segment.numRows).sum) :
    w'.rowCount ≤ (segments.map Segment.numRows).sum :=
  foldlM_preserves (fun _ _ _ _ hw hnext => rowCount_mergeColumn hnext hw) hw h

/-- Whatever the delta store holds, the merged segment has no more rows than its inputs. -/
theorem numRows_executeMerge {task : MergeTask} {merged : Segment}
    (h : executeMerge task = .ok merged) : merged.numRows ≤ task.inputRows := by
  unfold executeMerge at h
  rw [MergeTask.inputRows]
  split at h
  · cases h
    exact Nat.zero_le _
  · next segment hone =>
    cases h
    rw [hone]
    simp
  · next first rest hseveral =>
    obtain ⟨writer, hloop, h⟩ := bind_eq_ok.mp h
    cases h
    rw [hseveral]
    exact rowCount_mergeColumns hloop (Nat.zero_le _)

end SegmentMerger

/-- **No task keeps a live row of its delta store**, with however many input segments. -/
theorem executeMerge_loses_delta (task : MergeTask) (delta : DeltaStore) (htask : delta ∈ task.deltaStore)
    (col : Nat) (hcol : col < delta.numColumns) (hlive : liveRows delta col ≠ []) : ¬ task.KeepsAll := by
  intro h
  obtain ⟨merged, hmerge, hkeeps⟩ := h
  have hrows := (hkeeps delta htask col hcol).1
  have hle := SegmentMerger.numRows_executeMerge hmerge
  have hpos := List.length_pos_iff_ne_nil.mpr hlive
  omega

/-- A store with one live row, and no input segment. -/
def oneRow : DeltaStore := (DeltaStore.new 1 100).insert 1 [[5, 0, 0, 0]]

theorem oneRow_lost : ¬ ({inputSegments := [], deltaStore := some oneRow} : MergeTask).KeepsAll :=
  executeMerge_loses_delta {inputSegments := [], deltaStore := some oneRow} oneRow rfl 0 (by decide)
    (by decide +kernel)

/-- The same row beside one input segment, which is returned as it is. -/
theorem oneRow_lost_beside_segment :
    ¬ ({inputSegments := [⟨{numRows := 3}, []⟩], deltaStore := some oneRow} : MergeTask).KeepsAll := by
  intro h
  obtain ⟨merged, hmerge, hkeeps⟩ := h
  have hrows := (hkeeps oneRow rfl 0 (by decide)).1
  have hlen : (liveRows oneRow 0).length = 1 := by decide +kernel
  cases hmerge
  rw [hlen] at hrows
  cases hrows

end ColumnarStore.Merger
