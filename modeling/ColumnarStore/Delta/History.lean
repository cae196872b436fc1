import ColumnarStore.Delta.Store
import ColumnarStore.Foundation.Ascending

/-! What a store's readers see of its history.

`lastInsert` states the purpose of the store without its maps: the data a column
has for a row is what the last call to touch that row and column inserted, unless
that call was a delete or a clear. `tracks_run` shows that the two maps and the
counter say the same after any sequence of writes that leave their timestamps to
the store, as long as the counter has not gone round (`Tracks`, one step lemma for
each kind of write). `getRange_last_insert` reads it off a range. -/
namespace ColumnarStore.Delta
open Foundation

/-! ### The purpose -/

/-- The data `col` holds for `rowId` after a history, most recent call first. -/
def lastInsert (col : Nat) (rowId : RowId) : List Write → Option Bytes
  | [] => none
  | .clear :: _ => none
  | .delete r _ :: rest => if r = rowId then none else lastInsert col rowId rest
  | .insert r columnData _ :: rest =>
    if r = rowId ∧ col < columnData.length then columnData[col]? else lastInsert col rowId rest

/-! ### What a column's maps show -/

/-- The data a reader sees for a row: its insert, unless a delete is not older. -/
def ColumnDelta.visible (d : ColumnDelta) (rowId : RowId) : Option Bytes :=
  match d.inserts[rowId]? with
  | none => none
  | some e => if d.live rowId e.1 then some e.2 else none

namespace ColumnDelta

@[simp] theorem visible_empty (rowId : RowId) : ({} : ColumnDelta).visible rowId = none := by
  simp [visible]

theorem inserts_insert (d : ColumnDelta) (r rowId : RowId) (t : Timestamp) (data : Bytes) :
    (d.insert r t data).inserts[rowId]? = if r = rowId then some (t, data) else d.inserts[rowId]? := by
  simp [insert, Std.TreeMap.getElem?_insert]

theorem deletes_delete (d : ColumnDelta) (r rowId : RowId) (t : Timestamp) :
    (d.delete r t).deletes[rowId]? = if r = rowId then some t else d.deletes[rowId]? := by
  simp [delete, Std.TreeMap.getElem?_insert]

/-- Every timestamp in the column is at most `t`. -/
structure Stamped (d : ColumnDelta) (t : Timestamp) : Prop where
  inserts : ∀ (rowId : RowId) (e : Timestamp × Bytes), d.inserts[rowId]? = some e → e.1 ≤ t
  deletes : ∀ rowId deleted : UInt64, d.deletes[rowId]? = some deleted → deleted ≤ t

theorem Stamped.empty (t : Timestamp) : ({} : ColumnDelta).Stamped t :=
  ⟨fun _ _ h => by simp at h, fun _ _ h => by simp at h⟩

theorem Stamped.mono {d : ColumnDelta} {t t' : Timestamp} (h : d.Stamped t) (ht : t ≤ t') :
    d.Stamped t' :=
  ⟨fun r e he => UInt64.le_trans (h.inserts r e he) ht,
    fun r e he => UInt64.le_trans (h.deletes r e he) ht⟩

/-- An insert newer than everything in the column is what its row now shows. -/
theorem visible_insert {d : ColumnDelta} {old t : Timestamp} (h : d.Stamped old) (ht : old < t)
    (r rowId : RowId) (data : Bytes) :
    (d.insert r t data).visible rowId = if r = rowId then some data else d.visible rowId := by
  have hdeletes : (d.insert r t data).deletes = d.deletes := rfl
  unfold visible live
  rw [inserts_insert, hdeletes]
  by_cases hr : r = rowId
  · simp only [hr, if_true]
    cases hd : d.deletes[rowId]? with
    | none => rfl
    | some deleted =>
      have hlt : deleted < t := UInt64.lt_of_le_of_lt (h.deletes rowId deleted hd) ht
      simp [hlt]
  · simp only [hr, if_false]

/-- A delete newer than everything in the column hides its row. -/
theorem visible_delete {d : ColumnDelta} {old t : Timestamp} (h : d.Stamped old) (ht : old < t)
    (r rowId : RowId) :
    (d.delete r t).visible rowId = if r = rowId then none else d.visible rowId := by
  have hinserts : (d.delete r t).inserts = d.inserts := rfl
  unfold visible live
  rw [deletes_delete, hinserts]
  by_cases hr : r = rowId
  · simp only [hr, if_true]
    cases hi : d.inserts[rowId]? with
    | none => rfl
    | some e =>
      have hnot : ¬ t < e.1 := by
        have hle := UInt64.lt_of_le_of_lt (h.inserts rowId e hi) ht
        exact UInt64.not_lt.mpr (UInt64.le_of_lt hle)
      simp [hnot]
  · simp only [hr, if_false]

theorem Stamped.insert {d : ColumnDelta} {old t : Timestamp} (h : d.Stamped old) (ht : old < t)
    (r : RowId) (data : Bytes) : (d.insert r t data).Stamped t where
  inserts rowId e he := by
    rw [inserts_insert] at he
    split at he
    · cases he
      exact UInt64.le_refl t
    · exact (h.mono (UInt64.le_of_lt ht)).inserts rowId e he
  deletes := (h.mono (UInt64.le_of_lt ht)).deletes

theorem Stamped.delete {d : ColumnDelta} {old t : Timestamp} (h : d.Stamped old) (ht : old < t)
    (r : RowId) : (d.delete r t).Stamped t where
  inserts := (h.mono (UInt64.le_of_lt ht)).inserts
  deletes rowId deleted he := by
    rw [deletes_delete] at he
    split at he
    · cases he
      exact UInt64.le_refl t
    · exact (h.mono (UInt64.le_of_lt ht)).deletes rowId deleted he

theorem inserts_ascending (d : ColumnDelta) :
    Ascending (fun e : RowId × Timestamp × Bytes => e.1.toNat) d.inserts.toList := by
  refine List.Pairwise.imp (fun {a b} h => ?_) d.inserts.ordered_keys_toList
  exact UInt64.lt_iff_toNat_lt.mp (Std.compare_eq_lt.mp h)

end ColumnDelta

/-! ### One range read, in any state -/

namespace DeltaStore

/-- The rows a range read appends. -/
def rangeRows (s : DeltaStore) (col : Nat) (a b : RowId) : List (RowId × Bytes) := s.getRange col a b []

theorem getRange_append (s : DeltaStore) (col : Nat) (a b : RowId) (out : List (RowId × Bytes)) :
    s.getRange col a b out = out ++ s.rangeRows col a b := by
  unfold rangeRows getRange
  cases s.columns[col]? <;> simp

theorem rangeRows_ascending (s : DeltaStore) (col : Nat) (a b : RowId) :
    Ascending (fun e : RowId × Bytes => e.1.toNat) (s.rangeRows col a b) := by
  unfold rangeRows getRange
  cases s.columns[col]? with
  | none => exact List.Pairwise.nil
  | some d =>
    simp only [List.nil_append, UInt64.lt_iff_toNat_lt]
    refine (d.inserts_ascending.cursor a.toNat b.toNat).filterMap _ fun x y hxy => ?_
    split at hxy
    · cases hxy
      rfl
    · cases hxy

/-- A range read shows a row of the range exactly when its column does. -/
theorem mem_rangeRows {s : DeltaStore} {col : Nat} {d : ColumnDelta} (hd : s.columns[col]? = some d)
    (a b rowId : RowId) (data : Bytes) :
    (rowId, data) ∈ s.rangeRows col a b ↔ (a ≤ rowId ∧ rowId < b) ∧ d.visible rowId = some data := by
  have hcursor := d.inserts_ascending.mem_cursor a.toNat b.toNat
  simp only [rangeRows, getRange, hd, List.nil_append, List.mem_filterMap, UInt64.lt_iff_toNat_lt,
    UInt64.le_iff_toNat_le, hcursor]
  constructor
  · intro h
    obtain ⟨⟨r, e⟩, ⟨hmem, hrange⟩, he⟩ := h
    have hget := Std.TreeMap.mem_toList_iff_getElem?_eq_some.mp hmem
    split at he
    · next hlive =>
      cases he
      exact ⟨hrange, by simp [ColumnDelta.visible, hget, hlive]⟩
    · cases he
  · intro h
    obtain ⟨hrange, hv⟩ := h
    unfold ColumnDelta.visible at hv
    split at hv
    · cases hv
    · next e hget =>
      have hmem := Std.TreeMap.mem_toList_iff_getElem?_eq_some.mpr hget
      split at hv
      · next hlive =>
        cases hv
        exact ⟨(rowId, e), ⟨hmem, hrange⟩, by simp [hlive]⟩
      · cases hv

/-! ### The invariant over a run -/

/-- The store shows what the history, most recent call first, last left there, and
its counter is ahead of every timestamp it handed out. -/
structure Tracks (numColumns : Nat) (s : DeltaStore) (history : List Write) : Prop where
  columns : s.numColumns = numColumns
  clock : s.globalTimestamp.toNat ≤ history.length
  stamped : ∀ d ∈ s.columns, d.Stamped s.globalTimestamp
  visible : ∀ col d, s.columns[col]? = some d → ∀ rowId, d.visible rowId = lastInsert col rowId history

theorem tracks_new (numColumns : Nat) (flushThreshold : UInt64) :
    Tracks numColumns (new numColumns flushThreshold) [] where
  columns := by simp [new, DeltaStore.numColumns]
  clock := Nat.le_refl 0
  stamped d hd := by
    rw [List.eq_of_mem_replicate hd]
    exact .empty _
  visible col d hd rowId := by
    rw [List.eq_of_mem_replicate (List.mem_of_getElem? hd), ColumnDelta.visible_empty]
    rfl

/-- Below the last timestamp, drawing one moves the counter up by one. -/
theorem tick {s : DeltaStore} {n : Nat} (hclock : s.globalTimestamp.toNat ≤ n) (hn : n + 1 < 2 ^ 64) :
    s.globalTimestamp < s.globalTimestamp + 1 ∧ (s.globalTimestamp + 1).toNat ≤ n + 1 := by
  have hnat : (s.globalTimestamp + 1).toNat = s.globalTimestamp.toNat + 1 := by
    rw [UInt64.toNat_add, UInt64.toNat_one]
    exact Nat.mod_eq_of_lt (by omega)
  exact ⟨UInt64.lt_iff_toNat_lt.mpr (by omega), by omega⟩

theorem tracks_insert {numColumns : Nat} {s : DeltaStore} {history : List Write}
    (h : Tracks numColumns s history) (hn : history.length + 1 < 2 ^ 64) (r : RowId)
    (columnData : List Bytes) :
    Tracks numColumns (s.insert r columnData 0) (.insert r columnData 0 :: history) := by
  obtain ⟨hlt, hle⟩ := tick h.clock hn
  refine ⟨?_, hle, ?_, ?_⟩
  · simpa [DeltaStore.numColumns, insert] using h.columns
  · intro d hd
    obtain ⟨col, hcol, rfl⟩ := List.mem_mapIdx.mp hd
    have hstamped := h.stamped _ (List.getElem_mem hcol)
    cases columnData[col]? with
    | none => exact hstamped.mono (UInt64.le_of_lt hlt)
    | some data => exact hstamped.insert hlt r data
  · intro col d hd rowId
    simp only [insert, List.getElem?_mapIdx, Option.map_eq_some_iff] at hd
    obtain ⟨old, hold, rfl⟩ := hd
    have hvisible := h.visible col old hold rowId
    simp only [lastInsert]
    cases hdata : columnData[col]? with
    | none =>
      have hpast : ¬ col < columnData.length := by simpa using hdata
      simp [hpast, hvisible]
    | some data =>
      have hin : col < columnData.length := (List.getElem?_eq_some_iff.mp hdata).1
      simp only [ColumnDelta.visible_insert (h.stamped old (List.mem_of_getElem? hold)) hlt, hvisible,
        stamp, hin, and_true, if_true]

theorem tracks_delete {numColumns : Nat} {s : DeltaStore} {history : List Write}
    (h : Tracks numColumns s history) (hn : history.length + 1 < 2 ^ 64) (r : RowId) :
    Tracks numColumns (s.delete r 0) (.delete r 0 :: history) := by
  obtain ⟨hlt, hle⟩ := tick h.clock hn
  refine ⟨?_, hle, ?_, ?_⟩
  · simpa [DeltaStore.numColumns, delete] using h.columns
  · intro d hd
    obtain ⟨old, hold, rfl⟩ := List.mem_map.mp hd
    exact (h.stamped old hold).delete hlt r
  · intro col d hd rowId
    simp only [delete, List.getElem?_map, Option.map_eq_some_iff] at hd
    obtain ⟨old, hold, rfl⟩ := hd
    simp only [lastInsert, stamp, if_true,
      ColumnDelta.visible_delete (h.stamped old (List.mem_of_getElem? hold)) hlt,
      h.visible col old hold rowId]

theorem tracks_clear {numColumns : Nat} {s : DeltaStore} {history : List Write}
    (h : Tracks numColumns s history) : Tracks numColumns s.clear (.clear :: history) := by
  have hempty : ∀ d ∈ s.clear.columns, d = {} := by
    intro d hd
    obtain ⟨_, _, rfl⟩ := List.mem_map.mp hd
    rfl
  refine ⟨?_, ?_, ?_, ?_⟩
  · simpa [DeltaStore.numColumns, clear] using h.columns
  · exact h.clock.trans (Nat.le_succ _)
  · intro d hd
    rw [hempty d hd]
    exact .empty _
  · intro col d hd rowId
    rw [hempty d (List.mem_of_getElem? hd), ColumnDelta.visible_empty]
    rfl

theorem tracks_apply {numColumns : Nat} {s : DeltaStore} {history : List Write}
    (h : Tracks numColumns s history) (hn : history.length + 1 < 2 ^ 64) (w : Write)
    (hw : w.Automatic) : Tracks numColumns (w.apply s) (w :: history) := by
  cases w with
  | insert r columnData timestamp =>
    cases (hw : timestamp = 0)
    exact tracks_insert h hn r columnData
  | delete r timestamp =>
    cases (hw : timestamp = 0)
    exact tracks_delete h hn r
  | clear => exact tracks_clear h

/-- After any run of automatic writes, short of the counter going round, the maps
show the last write to every row. -/
theorem tracks_run (numColumns : Nat) (flushThreshold : UInt64) (writes : List Write)
    (hauto : ∀ w ∈ writes, w.Automatic) (hlen : writes.length < 2 ^ 64) :
    Tracks numColumns ((new numColumns flushThreshold).run writes) writes.reverse := by
  induction writes using List.reverseRecOn with
  | nil => exact tracks_new numColumns flushThreshold
  | append_singleton before w ih =>
    rw [List.length_append, List.length_singleton] at hlen
    have hbefore := ih (fun w hw => hauto w (List.mem_append_left _ hw)) (by omega)
    rw [run_append, List.reverse_append]
    exact tracks_apply hbefore (by simpa using hlen) w (hauto w (List.mem_append_right _ (by simp)))

/-- **A range read appends, in strictly ascending row order, exactly the rows of the
range whose last write is an insert, with the data of that insert.** -/
theorem getRange_last_insert (numColumns : Nat) (flushThreshold : UInt64) (writes : List Write)
    (hauto : ∀ w ∈ writes, w.Automatic) (hlen : writes.length < 2 ^ 64) (col : Nat)
    (hcol : col < numColumns) (a b : RowId) (out : List (RowId × Bytes)) :
    ∃ rows, ((new numColumns flushThreshold).run writes).getRange col a b out = out ++ rows ∧
      rows.Pairwise (fun x y => x.1 < y.1) ∧
      ∀ rowId data, (rowId, data) ∈ rows ↔
        (a ≤ rowId ∧ rowId < b) ∧ lastInsert col rowId writes.reverse = some data := by
  have htracks := tracks_run numColumns flushThreshold writes hauto hlen
  have hin : col < ((new numColumns flushThreshold).run writes).columns.length := by
    rw [← DeltaStore.numColumns, htracks.columns]
    exact hcol
  refine ⟨_, getRange_append _ col a b out, ?_, fun rowId data => ?_⟩
  · exact (rangeRows_ascending _ col a b).imp fun h => UInt64.lt_iff_toNat_lt.mpr h
  · rw [mem_rangeRows (List.getElem?_eq_getElem hin),
      htracks.visible col _ (List.getElem?_eq_getElem hin) rowId]

/-- A row inserted, deleted and inserted again, beside one left deleted. -/
theorem getRange_last_insert_reinserted :
    ∃ rows, ((new 1).run [.insert 7 [[1]] 0, .delete 7 0, .insert 7 [[2]] 0, .insert 8 [[3]] 0,
        .delete 8 0]).getRange 0 0 100 [] = [] ++ rows ∧
      rows.Pairwise (fun x y => x.1 < y.1) ∧
      ∀ rowId data, (rowId, data) ∈ rows ↔ ((0 : RowId) ≤ rowId ∧ rowId < 100) ∧
        lastInsert 0 rowId [.delete 8 0, .insert 8 [[3]] 0, .insert 7 [[2]] 0, .delete 7 0,
          .insert 7 [[1]] 0] = some data :=
  getRange_last_insert 1 100000 [.insert 7 [[1]] 0, .delete 7 0, .insert 7 [[2]] 0,
    .insert 8 [[3]] 0, .delete 8 0] (by decide) (by decide) 0 (by decide) 0 100 []

end DeltaStore

end ColumnarStore.Delta
