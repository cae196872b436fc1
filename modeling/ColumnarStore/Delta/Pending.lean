import ColumnarStore.Delta.Versions

/-! The counter of pending rows.

An insert adds one to the counter whether or not its row is stored already, and a stored
row is overwritten. So the counter is the number of inserts, modulo its width, while a
visit finds each row once: the two agree, and a flush of the visited rows empties the
counter, exactly when no insert repeats a row (`pending_visited_iff`), or so many do that
the counter wraps around. -/
namespace ColumnarStore.Delta
open Foundation

/-! ### Rows inserted -/

def Write.insertedRow : Write → Option RowId
  | insert r _ _ => some r
  | _ => none

/-- The row ids of the inserts, as often as each was inserted. -/
def insertedRows (writes : List Write) : List RowId := writes.filterMap Write.insertedRow

/-- The inserts of rows that were inserted before. -/
def repeats (rows : List RowId) : Nat := rows.length - rows.toFinset.card

/-- The counter is the number of rows a visit of the first column finds, and flushing as
many brings it to zero. -/
def DeltaStore.PendingVisited (s : DeltaStore) : Prop :=
  s.pendingRows.toNat = (s.visitInserts 0).length ∧
    (s.beginFlush.endFlush (UInt64.ofNat (s.visitInserts 0).length)).pendingRows = 0

/-! ### What is counted and what is stored -/

/-- The counter counts the inserts, the first column stores each of their rows once. -/
structure DeltaStore.Counts (s : DeltaStore) (rows : List RowId) : Prop where
  pending : s.pendingRows = UInt64.ofNat rows.length
  stored : ∃ d, s.columns[0]? = some d ∧ (∀ r, r ∈ d.inserts ↔ r ∈ rows) ∧
    d.inserts.size = rows.toFinset.card

namespace DeltaStore
variable {numColumns : Nat} {s : DeltaStore} {rows : List RowId}

theorem counts_new (hpos : 1 ≤ numColumns) (flushThreshold : UInt64) : (new numColumns flushThreshold).Counts [] where
  pending := rfl
  stored := ⟨{}, List.getElem?_replicate_of_lt hpos, by simp, by simp⟩

theorem Counts.insert (h : s.Counts rows) {columnData : List Bytes} (hdata : 0 < columnData.length) (r : RowId)
    (timestamp : Timestamp) : (s.insert r columnData timestamp).Counts (rows ++ [r]) where
  pending := by
    show s.pendingRows + 1 = _
    rw [h.pending, List.length_append, List.length_singleton, UInt64.ofNat_add]
    rfl
  stored := by
    obtain ⟨d, hd, hmem, hsize⟩ := h.stored
    refine ⟨d.insert r (s.stamp timestamp) columnData[0], ?_, fun r' => ?_, ?_⟩
    · simp [DeltaStore.insert, hd, List.getElem?_eq_getElem hdata]
    · rw [ColumnDelta.insert, Std.TreeMap.mem_insert, hmem, List.mem_append, List.mem_singleton,
        Std.LawfulEqCmp.compare_eq_iff_eq, or_comm, eq_comm]
    · have hrows : (rows ++ [r]).toFinset = Insert.insert r rows.toFinset := by
        ext r'
        simp
      rw [ColumnDelta.insert, Std.TreeMap.size_insert, hrows, Finset.card_insert_eq_ite, hsize]
      simp only [Std.TreeMap.contains_iff_mem, hmem, List.mem_toFinset]

theorem Counts.delete (h : s.Counts rows) (r : RowId) (timestamp : Timestamp) : (s.delete r timestamp).Counts rows where
  pending := h.pending
  stored := by
    obtain ⟨d, hd, hmem, hsize⟩ := h.stored
    exact ⟨d.delete r (s.stamp timestamp), by simp [DeltaStore.delete, hd], hmem, hsize⟩

/-- After any inserts with data for all columns, and deletes, of a new store. -/
theorem counts_run (hpos : 1 ≤ numColumns) (flushThreshold : UInt64) (writes : List Write)
    (hwrites : ∀ w ∈ writes, w.Complete numColumns ∧ w ≠ .clear) :
    ((new numColumns flushThreshold).run writes).Counts (insertedRows writes) := by
  induction writes using List.reverseRecOn with
  | nil => exact counts_new hpos flushThreshold
  | append_singleton before w ih =>
    have hbefore := ih fun w' hw' => hwrites w' (List.mem_append_left _ hw')
    obtain ⟨hcomplete, hclear⟩ := hwrites w (List.mem_append_right _ (List.mem_singleton_self w))
    rw [run_append, insertedRows, List.filterMap_append]
    cases w with
    | insert r columnData timestamp => exact hbefore.insert (hpos.trans hcomplete) r timestamp
    | delete r timestamp =>
      rw [show [Write.delete r timestamp].filterMap Write.insertedRow = [] from rfl, List.append_nil]
      exact hbefore.delete r timestamp
    | clear => exact absurd rfl hclear

/-- The number of distinct rows against the number of inserts, modulo the counter's width. -/
theorem Counts.pendingVisited_iff (h : s.Counts rows) :
    s.PendingVisited ↔ 2 ^ 64 ∣ repeats rows ∧ rows.toFinset.card < 2 ^ 64 := by
  obtain ⟨d, hd, -, hsize⟩ := h.stored
  have hvisit : (s.visitInserts 0).length = rows.toFinset.card := by
    rw [visitInserts, hd, ← hsize]
    exact Std.TreeMap.length_toList
  have hle : rows.toFinset.card ≤ rows.length := rows.toFinset_card_le
  have hpending : s.pendingRows.toNat = rows.length % 2 ^ 64 := by
    rw [h.pending]
    exact UInt64.toNat_ofNat'
  have hflush : (s.beginFlush.endFlush (UInt64.ofNat rows.toFinset.card)).pendingRows = 0 ↔
      rows.length % 2 ^ 64 = rows.toFinset.card % 2 ^ 64 := by
    show s.pendingRows - UInt64.ofNat rows.toFinset.card = 0 ↔ _
    rw [UInt64.sub_eq_iff_eq_add, UInt64.zero_add, ← UInt64.toNat_inj, hpending, UInt64.toNat_ofNat']
  rw [PendingVisited, hvisit, hpending, hflush, repeats]
  constructor
  · intro h'
    omega
  · intro h'
    obtain ⟨hwraps, hlt⟩ := h'
    omega

end DeltaStore

/-- **The counter is the number of rows a visit finds, and flushing them empties it,
exactly when the inserts that repeat a row are a multiple of 2^64, so none in practice,
and fewer than 2^64 rows are stored.** -/
theorem pending_visited_iff {numColumns : Nat} (hpos : 1 ≤ numColumns) (flushThreshold : UInt64)
    (writes : List Write) (hwrites : ∀ w ∈ writes, w.Complete numColumns ∧ w ≠ .clear) :
    ((DeltaStore.new numColumns flushThreshold).run writes).PendingVisited ↔
      2 ^ 64 ∣ repeats (insertedRows writes) ∧ (insertedRows writes).toFinset.card < 2 ^ 64 :=
  (DeltaStore.counts_run hpos flushThreshold writes hwrites).pendingVisited_iff

/-- Three rows inserted once each, one of them deleted. -/
theorem distinctRows_visited : ((DeltaStore.new 1).run
    [.insert 1 [[1]] 0, .insert 2 [[2]] 0, .delete 1 0, .insert 3 [[3]] 0]).PendingVisited :=
  (pending_visited_iff le_rfl 100000 _ (by simp [Write.Complete])).mpr (by decide)

/-- A row inserted twice is counted twice and stored once. -/
theorem overwrittenRow_not_visited : ¬ ((DeltaStore.new 1).run
    [.insert 1 [[1]] 0, .insert 1 [[2]] 0]).PendingVisited := by
  intro h
  cases h.1

end ColumnarStore.Delta
