import ColumnarStore.Delta.History
import ColumnarStore.Foundation.Runs

/-! Reading one row in two ways.

`Get` hides a row that carries any delete; `GetRange` hides it only if the delete is
not older than the insert. The two agree in every state of a run exactly when the run
keeps every deleted row deleted (`reads_agree_iff`). -/
namespace ColumnarStore.Delta
open Foundation

/-! ### One row of one column -/

namespace ColumnDelta
variable {d : ColumnDelta} {rowId : RowId}

/-- No insert of the row is newer than a delete it carries. -/
def Settled (d : ColumnDelta) (rowId : RowId) : Prop :=
  ∀ e deleted, d.inserts[rowId]? = some e → d.deletes[rowId]? = some deleted → e.1 ≤ deleted

theorem settled_empty (rowId : RowId) : ({} : ColumnDelta).Settled rowId := fun _ _ h => by simp at h

/-- The column shows the row exactly when `Get` would, provided the row is settled. -/
theorem visible_eq_of_settled (h : d.Settled rowId) :
    d.visible rowId = if rowId ∈ d.deletes then none else d.inserts[rowId]?.map Prod.snd := by
  unfold visible live
  cases hi : d.inserts[rowId]? with
  | none => simp
  | some e =>
    cases hd : d.deletes[rowId]? with
    | none =>
      have hnot : rowId ∉ d.deletes := fun hmem => by
        simpa [hd] using Std.TreeMap.mem_iff_isSome_getElem?.mp hmem
      simp [hnot]
    | some deleted =>
      have hmem : rowId ∈ d.deletes := Std.TreeMap.mem_iff_isSome_getElem?.mpr (by simp [hd])
      have hnot : ¬ deleted < e.1 := UInt64.not_lt.mpr (h e deleted hi hd)
      simp [hmem, hnot]

theorem settled_insert (t : Timestamp) (data : Bytes) (r : RowId) (h : d.Settled rowId) :
    (d.insert r t data).Settled rowId ↔
      (r = rowId → ∀ deleted, d.deletes[rowId]? = some deleted → t ≤ deleted) := by
  have hdeletes : (d.insert r t data).deletes = d.deletes := rfl
  unfold Settled
  rw [hdeletes, inserts_insert]
  by_cases hr : r = rowId
  · rw [if_pos hr]
    constructor
    · exact fun hs _ deleted => hs _ deleted rfl
    · intro hs e deleted he
      cases he
      exact hs hr deleted
  · rw [if_neg hr]
    exact iff_of_true h fun hr' => absurd hr' hr

theorem settled_delete (t : Timestamp) (r : RowId) (h : d.Settled rowId) :
    (d.delete r t).Settled rowId ↔ (r = rowId → ∀ e, d.inserts[rowId]? = some e → e.1 ≤ t) := by
  have hinserts : (d.delete r t).inserts = d.inserts := rfl
  unfold Settled
  rw [hinserts, deletes_delete]
  by_cases hr : r = rowId
  · rw [if_pos hr]
    constructor
    · exact fun hs _ e he => hs e t he rfl
    · intro hs e deleted he hdel
      cases hdel
      exact hs hr e he
  · rw [if_neg hr]
    exact iff_of_true h fun hr' => absurd hr' hr

end ColumnDelta

namespace DeltaStore

/-! ### The two reads -/

/-- The point read and the range read of one row find the row together, with the same data. -/
def ReadsAgreeAt (s : DeltaStore) (col : Nat) (rowId : RowId) : Prop :=
  ((s.get col rowId).isSome ↔ s.getRange col rowId (rowId + 1) [] ≠ []) ∧
    ∀ data timestamp, s.get col rowId = some (data, timestamp) →
      s.getRange col rowId (rowId + 1) [] = [(rowId, data)]

/-- They agree on every row that has a next. -/
def ReadsAgree (s : DeltaStore) : Prop :=
  ∀ col (rowId : RowId), rowId.toNat < 2 ^ 64 - 1 → s.ReadsAgreeAt col rowId

theorem lt_succ_iff {r rowId : RowId} (hrow : rowId.toNat < 2 ^ 64 - 1) :
    rowId ≤ r ∧ r < rowId + 1 ↔ r = rowId := by
  have hnat : (rowId + 1).toNat = rowId.toNat + 1 := by
    rw [UInt64.toNat_add, UInt64.toNat_one]
    exact Nat.mod_eq_of_lt (by omega)
  rw [UInt64.le_iff_toNat_le, UInt64.lt_iff_toNat_lt, hnat, ← UInt64.toNat_inj]
  omega

/-- A range of one row is the row, if its column shows it. -/
theorem getRange_row {s : DeltaStore} {col : Nat} {d : ColumnDelta} (hd : s.columns[col]? = some d)
    {rowId : RowId} (hrow : rowId.toNat < 2 ^ 64 - 1) :
    s.getRange col rowId (rowId + 1) [] = ((d.visible rowId).map (rowId, ·)).toList := by
  have hmem : ∀ e, e ∈ s.rangeRows col rowId (rowId + 1) ↔ e.1 = rowId ∧ d.visible rowId = some e.2 := by
    intro e
    obtain ⟨r, data⟩ := e
    rw [mem_rangeRows hd, lt_succ_iff hrow]
    constructor
    · intro h
      obtain ⟨rfl, hv⟩ := h
      exact ⟨rfl, hv⟩
    · intro h
      obtain ⟨rfl, hv⟩ := h
      exact ⟨rfl, hv⟩
  have hasc := s.rangeRows_ascending col rowId (rowId + 1)
  show s.rangeRows col rowId (rowId + 1) = _
  generalize s.rangeRows col rowId (rowId + 1) = rows at hmem hasc
  cases hv : d.visible rowId with
  | none =>
    refine List.eq_nil_iff_forall_not_mem.mpr fun e he => ?_
    cases hv.symm.trans ((hmem e).mp he).2
  | some data =>
    cases rows with
    | nil => cases (hmem (rowId, data)).mpr ⟨rfl, hv⟩
    | cons e rest =>
      obtain ⟨he, hdata⟩ := (hmem e).mp List.mem_cons_self
      have hrest : rest = [] := by
        refine List.eq_nil_iff_forall_not_mem.mpr fun e' he' => ?_
        have hlt := hasc.head_lt e' he'
        rw [he, ((hmem e').mp (List.mem_cons_of_mem _ he')).1] at hlt
        exact absurd hlt (Nat.lt_irrefl _)
      obtain ⟨r, x⟩ := e
      cases he
      cases hv.symm.trans hdata
      rw [hrest]
      rfl

/-- The two reads of a row agree exactly when the row is settled in the column. -/
theorem readsAgreeAt_iff {s : DeltaStore} {col : Nat} {d : ColumnDelta} (hd : s.columns[col]? = some d)
    {rowId : RowId} (hrow : rowId.toNat < 2 ^ 64 - 1) : s.ReadsAgreeAt col rowId ↔ d.Settled rowId := by
  rw [ReadsAgreeAt, getRange_row hd hrow, get, hd]
  constructor
  · rintro ⟨hfound, -⟩ e deleted hi hdel
    have hmem : rowId ∈ d.deletes := Std.TreeMap.mem_iff_isSome_getElem?.mpr (by simp [hdel])
    have hnone : d.visible rowId = none := by
      simpa [hmem] using hfound
    by_contra hlt
    have hlive : deleted < e.1 := UInt64.not_le.mp hlt
    simp [ColumnDelta.visible, ColumnDelta.live, hi, hdel, hlive] at hnone
  · intro hsettled
    rw [ColumnDelta.visible_eq_of_settled hsettled]
    by_cases hmem : rowId ∈ d.deletes
    · simp [hmem]
    · simp only [hmem, if_false]
      cases d.inserts[rowId]? with
      | none => simp
      | some e => simp

/-! ### Runs -/

/-- Every row that has a next is settled in every column. -/
def Settled (s : DeltaStore) : Prop :=
  ∀ d ∈ s.columns, ∀ rowId : RowId, rowId.toNat < 2 ^ 64 - 1 → d.Settled rowId

theorem readsAgree_iff (s : DeltaStore) : s.ReadsAgree ↔ s.Settled := by
  constructor
  · intro h d hd rowId hrow
    obtain ⟨col, hcol⟩ := List.getElem?_of_mem hd
    exact (readsAgreeAt_iff hcol hrow).mp (h col rowId hrow)
  · intro h col rowId hrow
    cases hcol : s.columns[col]? with
    | none => simp [ReadsAgreeAt, get, getRange, hcol]
    | some d => exact (readsAgreeAt_iff hcol hrow).mpr (h d (List.mem_of_getElem? hcol) rowId hrow)

/-- A call that brings no deleted row back: an insert is not newer than a delete its row
carries in a column it writes, and a delete is not older than an insert of its row. -/
def KeepsDeleted (s : DeltaStore) : Write → Prop
  | .insert rowId columnData timestamp => rowId.toNat < 2 ^ 64 - 1 →
    ∀ d ∈ s.columns.take columnData.length, ∀ deleted, d.deletes[rowId]? = some deleted →
      s.stamp timestamp ≤ deleted
  | .delete rowId timestamp => rowId.toNat < 2 ^ 64 - 1 →
    ∀ d ∈ s.columns, ∀ e, d.inserts[rowId]? = some e → e.1 ≤ s.stamp timestamp
  | .clear => True

/-- The columns of a store after an insert: the first ones are written. -/
theorem mem_columns_insert {s : DeltaStore} {r : RowId} {columnData : List Bytes} {t : Timestamp}
    {d' : ColumnDelta} : d' ∈ (s.insert r columnData t).columns ↔
      ∃ (col : Nat) (d : ColumnDelta), s.columns[col]? = some d ∧ d' = match columnData[col]? with
        | some data => d.insert r (s.stamp t) data
        | none => d := by
  simp only [insert, List.mem_mapIdx, List.getElem?_eq_some_iff]
  constructor
  · intro h
    obtain ⟨col, hcol, rfl⟩ := h
    exact ⟨col, _, ⟨hcol, rfl⟩, rfl⟩
  · intro h
    obtain ⟨col, d, ⟨hcol, rfl⟩, rfl⟩ := h
    exact ⟨col, hcol, rfl⟩

theorem settled_apply {s : DeltaStore} (h : s.Settled) (w : Write) :
    (w.apply s).Settled ↔ s.KeepsDeleted w := by
  cases w with
  | insert r columnData timestamp =>
    constructor
    · intro hs hrow d hd
      obtain ⟨col, hcol⟩ := List.getElem?_of_mem hd
      rw [List.getElem?_take] at hcol
      split at hcol
      · next hlt =>
        have hwritten := hs _ (mem_columns_insert.mpr ⟨col, d, hcol, rfl⟩) r hrow
        rw [List.getElem?_eq_getElem hlt] at hwritten
        exact (ColumnDelta.settled_insert _ _ r (h d (List.mem_of_getElem? hcol) r hrow)).mp hwritten rfl
      · cases hcol
    · intro hs d' hd' rowId hrow
      obtain ⟨col, d, hcol, rfl⟩ := mem_columns_insert.mp hd'
      have hsettled := h d (List.mem_of_getElem? hcol) rowId hrow
      cases hdata : columnData[col]? with
      | none => exact hsettled
      | some data =>
        refine (ColumnDelta.settled_insert _ _ r hsettled).mpr fun hr => ?_
        subst hr
        have hlt : col < columnData.length := (List.getElem?_eq_some_iff.mp hdata).1
        refine hs hrow d (List.mem_of_getElem? (i := col) ?_)
        rw [List.getElem?_take, if_pos hlt, hcol]
  | delete r timestamp =>
    constructor
    · intro hs hrow d hd
      have hdeleted := hs _ (List.mem_map_of_mem hd) r hrow
      exact (ColumnDelta.settled_delete _ r (h d hd r hrow)).mp hdeleted rfl
    · intro hs d' hd' rowId hrow
      obtain ⟨d, hd, rfl⟩ := List.mem_map.mp hd'
      refine (ColumnDelta.settled_delete _ r (h d hd rowId hrow)).mpr fun hr => ?_
      subst hr
      exact hs hrow d hd
  | clear =>
    refine iff_of_true (fun d hd rowId _ => ?_) trivial
    obtain ⟨_, _, rfl⟩ := List.mem_map.mp hd
    exact ColumnDelta.settled_empty rowId

theorem settled_new (numColumns : Nat) (flushThreshold : UInt64) :
    (new numColumns flushThreshold).Settled := by
  intro d hd rowId _
  rw [List.eq_of_mem_replicate hd]
  exact ColumnDelta.settled_empty rowId

/-- **Point reads and range reads agree in every state of a run exactly when no call of
the run brings a deleted row back.** -/
theorem reads_agree_iff (numColumns : Nat) (flushThreshold : UInt64) (writes : List Write) :
    Throughout Write.apply ReadsAgree (new numColumns flushThreshold) writes ↔
      Along Write.apply KeepsDeleted (new numColumns flushThreshold) writes := by
  refine throughout_iff_along Settled (fun s => (readsAgree_iff s).mpr)
    (fun s w h => (settled_apply h w).mpr) (fun s w h hagree => ?_) (settled_new numColumns flushThreshold) writes
  exact (settled_apply h w).mp ((readsAgree_iff _).mp hagree)

/-- A row deleted and inserted again: the range read has it, the point read does not. -/
theorem reinserted_reads_disagree :
    ¬ Throughout Write.apply ReadsAgree (new 1) [.insert 7 [[1]] 0, .delete 7 0, .insert 7 [[2]] 0] := by
  intro h
  obtain ⟨-, -, -, hagree⟩ := h
  obtain ⟨hfound, -⟩ := hagree 0 7 (by decide)
  have hpoint : (((new 1).run [.insert 7 [[1]] 0, .delete 7 0, .insert 7 [[2]] 0]).get 0 7).isSome =
      false := by decide +kernel
  have hrange : ((new 1).run [.insert 7 [[1]] 0, .delete 7 0, .insert 7 [[2]] 0]).getRange 0 7 8 [] =
      [(7, [2])] := by decide +kernel
  have hfound' := hfound.mpr (by
    intro hnil
    cases hrange.symm.trans hnil)
  cases hpoint.symm.trans hfound'

end DeltaStore

end ColumnarStore.Delta
