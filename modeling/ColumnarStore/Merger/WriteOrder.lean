import ColumnarStore.Foundation.Extremes
import ColumnarStore.Merger.Alignment

/-! The order of a merged column.

A writer leaves its segments' timestamps at zero, no later than any of the store. So a
merge puts the values of the segments first, in the order of the list, and behind them
those of the store in the order of the last inserts of their rows: the store is a log in
which a row that is written again moves to the end (`merged_in_write_order`). -/
namespace ColumnarStore.Merger
open Foundation Delta

/-! ### The log -/

/-- What a write leaves of a column's log. -/
def logged (col : Nat) (log : List (RowId × Bytes)) : Write → List (RowId × Bytes)
  | .insert rowId columnData _ =>
    match columnData[col]? with
    | some data => (log.filter fun e => e.1 ≠ rowId) ++ [(rowId, data)]
    | none => log
  | .delete _ _ => log
  | .clear => []

def insertLog (col : Nat) (writes : List Write) : List (RowId × Bytes) := writes.foldl (logged col) []

/-- The entries of a column by their timestamps are the log. -/
def Logged (s : DeltaStore) (col : Nat) (log : List (RowId × Bytes)) : Prop :=
  ∃ entries : List (RowId × Timestamp × Bytes), (∀ e, e ∈ entries ↔ e ∈ s.visitInserts col) ∧
    entries.Pairwise (fun a b => a.2.1 < b.2.1) ∧ (∀ e ∈ entries, e.2.1 ≤ s.globalTimestamp) ∧
    entries.map (fun e => (e.1, e.2.2)) = log

theorem mem_visitInserts {s : DeltaStore} {col : Nat} {d : ColumnDelta} (hd : s.columns[col]? = some d)
    (e : RowId × Timestamp × Bytes) : e ∈ s.visitInserts col ↔ d.inserts[e.1]? = some e.2 := by
  rw [DeltaStore.visitInserts, hd]
  exact Std.TreeMap.mem_toList_iff_getElem?_eq_some

theorem Logged.keep {s s' : DeltaStore} {col : Nat} {log : List (RowId × Bytes)} (h : Logged s col log)
    (hvisit : s'.visitInserts col = s.visitInserts col) (hclock : s.globalTimestamp ≤ s'.globalTimestamp) :
    Logged s' col log := by
  obtain ⟨entries, hmem, hsorted, hstamps, hlog⟩ := h
  exact ⟨entries, fun e => by rw [hvisit, hmem], hsorted, fun e he => UInt64.le_trans (hstamps e he) hclock, hlog⟩

theorem Logged.insert {s : DeltaStore} {col : Nat} {log : List (RowId × Bytes)} (h : Logged s col log)
    {d : ColumnDelta} (hd : s.columns[col]? = some d) (hclock : s.globalTimestamp < s.globalTimestamp + 1)
    (rowId : RowId) (columnData : List Bytes) :
    Logged (s.insert rowId columnData 0) col (logged col log (.insert rowId columnData 0)) := by
  have hnext : (s.insert rowId columnData 0).globalTimestamp = s.globalTimestamp + 1 := rfl
  have hcolumn : (s.insert rowId columnData 0).columns[col]? = some (match columnData[col]? with
      | some data => d.insert rowId (s.globalTimestamp + 1) data
      | none => d) := by
    show (s.columns.mapIdx _)[col]? = _
    rw [List.getElem?_mapIdx, hd]
    rfl
  cases hdata : columnData[col]? with
  | none =>
    have hlog : logged col log (.insert rowId columnData 0) = log := by rw [logged, hdata]
    rw [hdata] at hcolumn
    rw [hlog]
    refine h.keep ?_ (by rw [hnext]; exact UInt64.le_of_lt hclock)
    rw [DeltaStore.visitInserts, DeltaStore.visitInserts, hcolumn, hd]
  | some data =>
    rw [hdata] at hcolumn
    obtain ⟨entries, hmem, hsorted, hstamps, hlog⟩ := h
    refine ⟨(entries.filter fun e => e.1 ≠ rowId) ++ [(rowId, s.globalTimestamp + 1, data)], fun e => ?_, ?_, ?_, ?_⟩
    · rw [mem_visitInserts hcolumn, List.mem_append, List.mem_filter, hmem, mem_visitInserts hd, List.mem_singleton,
        ColumnDelta.inserts_insert]
      by_cases hrow : rowId = e.1
      · rw [if_pos hrow]
        obtain ⟨r, t, b⟩ := e
        cases hrow
        simp [eq_comm]
      · rw [if_neg hrow]
        have hne : e ≠ (rowId, s.globalTimestamp + 1, data) := fun heq => hrow (congrArg Prod.fst heq).symm
        simp [Ne.symm hrow, hne]
    · refine List.pairwise_append.mpr ⟨hsorted.filter _, List.pairwise_singleton _ _, fun a ha b hb => ?_⟩
      rw [List.mem_singleton.mp hb]
      exact UInt64.lt_of_le_of_lt (hstamps a (List.mem_filter.mp ha).1) hclock
    · intro e he
      rw [hnext]
      rcases List.mem_append.mp he with he | he
      · exact UInt64.le_trans (hstamps e (List.mem_filter.mp he).1) (UInt64.le_of_lt hclock)
      · rw [List.mem_singleton.mp he]
        exact UInt64.le_refl _
    · rw [logged, hdata, ← hlog, List.map_append, List.filter_map]
      rfl

/-- A run of automatic writes, short of the counter going round. -/
theorem logged_run {numColumns col : Nat} (hcol : col < numColumns) (flushThreshold : UInt64) {writes : List Write}
    (hauto : ∀ w ∈ writes, w.Automatic) (hlen : writes.length < 2 ^ 64) :
    Logged ((DeltaStore.new numColumns flushThreshold).run writes) col (insertLog col writes) := by
  induction writes using List.reverseRecOn with
  | nil =>
    have hcolumn : (DeltaStore.new numColumns flushThreshold).columns[col]? = some {} := by
      simp [DeltaStore.new, hcol]
    refine ⟨[], fun e => iff_of_false List.not_mem_nil ?_, .nil, fun e he => absurd he List.not_mem_nil, rfl⟩
    show e ∉ (DeltaStore.new numColumns flushThreshold).visitInserts col
    rw [mem_visitInserts hcolumn]
    simp
  | append_singleton before w ih =>
    have hbefore : ∀ w ∈ before, w.Automatic := fun w' hw' => hauto w' (List.mem_append_left _ hw')
    rw [List.length_append, List.length_singleton] at hlen
    have h := ih hbefore (by omega)
    have htracks := DeltaStore.tracks_run numColumns flushThreshold before hbefore (by omega)
    have hw := hauto w (List.mem_append_right _ (List.mem_singleton_self w))
    rw [DeltaStore.run_append, insertLog, List.foldl_append]
    generalize (DeltaStore.new numColumns flushThreshold).run before = s at h htracks
    have hclock := DeltaStore.tick htracks.clock (by rw [List.length_reverse]; exact hlen)
    have hlt : col < s.columns.length := hcol.trans_eq htracks.columns.symm
    have hd := List.getElem?_eq_getElem hlt
    change Logged (w.apply s) col (logged col (insertLog col before) w)
    cases w with
    | insert rowId columnData timestamp =>
      cases hw
      exact h.insert hd hclock.1 rowId columnData
    | delete rowId timestamp =>
      cases hw
      refine h.keep ?_ (UInt64.le_of_lt hclock.1)
      have hcolumn : (s.delete rowId 0).columns[col]? = some (s.columns[col].delete rowId (s.stamp 0)) := by
        show (s.columns.map _)[col]? = _
        rw [List.getElem?_map, hd]
        rfl
      rw [Write.apply, DeltaStore.visitInserts, DeltaStore.visitInserts, hcolumn, hd]
      rfl
    | clear =>
      have hcolumn : s.clear.columns[col]? = some {} := by
        show (s.columns.map _)[col]? = _
        rw [List.getElem?_map, hd]
        rfl
      refine ⟨[], fun e => iff_of_false List.not_mem_nil ?_, .nil, fun e he => absurd he List.not_mem_nil, rfl⟩
      show e ∉ s.clear.visitInserts col
      rw [mem_visitInserts hcolumn]
      simp

/-! ### The sort -/

/-- A stable sort leaves a sorted beginning where it is, ahead of nothing lesser. -/
theorem insertionSort_append_of_le {α : Type} (r : α → α → Prop) [DecidableRel r] {a b : List α} (ha : a.Pairwise r)
    (hab : ∀ x ∈ a, ∀ y ∈ b, r x y) : (a ++ b).insertionSort r = a ++ b.insertionSort r := by
  induction a with
  | nil => rfl
  | cons x rest ih =>
    obtain ⟨hx, hrest⟩ := List.pairwise_cons.mp ha
    rw [List.cons_append, List.insertionSort_cons_of_forall_rel, ih hrest fun y hy => hab y (List.mem_cons_of_mem x hy),
      List.cons_append]
    intro y hy
    rcases List.mem_append.mp hy with hy | hy
    · exact hx y hy
    · exact hab x List.mem_cons_self y hy

/-- The visited entries in the order of their timestamps are the log's. -/
theorem Logged.sorted {s : DeltaStore} {col : Nat} {log : List (RowId × Bytes)} (h : Logged s col log) {β : Type}
    (f : Bytes → β) :
    (((s.visitInserts col).map fun e => (e.2.1.toNat, f e.2.2)).insertionSort fun a b => a.1 ≤ b.1).map Prod.snd =
      log.map fun e => f e.2 := by
  obtain ⟨entries, hmem, hsorted, -, rfl⟩ := h
  have hperm : entries.Perm (s.visitInserts col) := by
    have hnodup : (s.visitInserts col).Nodup := by
      rw [DeltaStore.visitInserts]
      cases s.columns[col]? with
      | none => exact List.nodup_nil
      | some d => exact d.inserts_ascending.imp fun hlt heq => absurd (congrArg (fun e => e.1.toNat) heq) hlt.ne
    have hentries : entries.Nodup := hsorted.imp fun hlt heq => by
      rw [heq] at hlt
      exact UInt64.lt_irrefl _ hlt
    exact (List.perm_ext_iff_of_nodup hentries hnodup).mpr hmem
  have hkeys : (entries.map fun e => (e.2.1.toNat, f e.2.2)).Pairwise fun a b => a.1 < b.1 :=
    List.pairwise_map.mpr (hsorted.imp UInt64.lt_iff_toNat_lt.mp)
  have heq : ((s.visitInserts col).map fun e => (e.2.1.toNat, f e.2.2)).insertionSort (fun a b => a.1 ≤ b.1) =
      entries.map fun e => (e.2.1.toNat, f e.2.2) := by
    have hsame := (List.perm_insertionSort (fun a b : Nat × β => a.1 ≤ b.1) _).trans (hperm.symm.map fun e =>
      (e.2.1.toNat, f e.2.2))
    refine List.Perm.eq_of_pairwise ?_ (List.pairwise_insertionSort _ _) (hkeys.imp le_of_lt) hsame
    intro a b ha hb hab hba
    have hnodup : ((entries.map fun e => (e.2.1.toNat, f e.2.2)).map Prod.fst).Nodup :=
      List.pairwise_map.mpr (hkeys.imp ne_of_lt)
    exact List.inj_on_of_nodup_map hnodup (hsame.subset ha) hb (le_antisymm hab hba)
  rw [heq, List.map_map, List.map_map]
  rfl

namespace ColumnMerger

/-- The statistics of merged values: their number, and the least and greatest of them. -/
structure Summarizes (m : ColumnMerger) (t : DataType) (values : List (Native t)) (stats : ColumnStats) : Prop where
  type : stats.type = m.columnType
  totalCount : stats.totalCount = values.length
  nullCount : stats.nullCount = 0
  bounds : values ≠ [] → stats.hasMinMax = true ∧
    IsLeast {v | v ∈ values.map fun value => (value.toInt64 t).toInt} stats.minInt.toInt ∧
    IsGreatest {v | v ∈ values.map fun value => (value.toInt64 t).toInt} stats.maxInt.toInt

theorem summarizes_bounds (t : DataType) (first : Native t) (rest : List (Native t)) :
    IsLeast {v | v ∈ (first :: rest).map fun value => (value.toInt64 t).toInt} (widenedBounds t first rest).1.toInt ∧
      IsGreatest {v | v ∈ (first :: rest).map fun value => (value.toInt64 t).toInt}
        (widenedBounds t first rest).2.toInt := by
  have hlesser : PicksLesser (fun v : Int64Bits => v.toInt) fun v w => if w.slt v then w else v :=
    .of_ite fun v w => by simp only [BitVec.slt_iff_toInt_lt]
  have hgreater : PicksLesser (fun v : Int64Bits => OrderDual.toDual v.toInt) fun v w => if v.slt w then w else v :=
    .of_ite fun v w => by simp only [BitVec.slt_iff_toInt_lt, OrderDual.toDual_lt_toDual]
  have hwide : widenedBounds t first rest = ((rest.map (Native.toInt64 t)).foldl
      (fun bounds v => (if v.slt bounds.1 then v else bounds.1, if bounds.2.slt v then v else bounds.2))
      (first.toInt64 t, first.toInt64 t)) := by
    rw [List.foldl_map]
    rfl
  obtain ⟨hlo, hhi, hall⟩ := hlesser.foldl_extremes hgreater (first.toInt64 t) (rest.map (Native.toInt64 t)) hwide.symm
  have hvalues : ((first :: rest).map fun value => (value.toInt64 t).toInt) =
      (first.toInt64 t :: rest.map (Native.toInt64 t)).map BitVec.toInt := by simp
  rw [hvalues]
  refine ⟨⟨List.mem_map_of_mem hlo, fun v hv => ?_⟩, ⟨List.mem_map_of_mem hhi, fun v hv => ?_⟩⟩
  · obtain ⟨w, hw, rfl⟩ := List.mem_map.mp hv
    exact (hall w hw).1
  · obtain ⟨w, hw, rfl⟩ := List.mem_map.mp hv
    exact (hall w hw).2

/-- The encoded values, with their statistics. -/
theorem mergeColumn_summarized {m : ColumnMerger} {t : DataType} (ht : t.isNumeric = true)
    (segments : List (SegmentColumn t m.columnIndex)) (delta : Option DeltaStore) (outStats : ColumnStats) :
    ∃ stats, m.mergeColumn t (segments.map SegmentColumn.segment) delta outStats = .ok (storeWords t.typeSize
      (((m.entries segments delta).insertionSort fun a b => a.1 ≤ b.1).map Prod.snd), stats) ∧
    m.Summarizes t (((m.entries segments delta).insertionSort fun a b => a.1 ≤ b.1).map Prod.snd) stats := by
  obtain ⟨stats, hmerge⟩ := mergeColumn_sorted ht segments delta outStats
  refine ⟨stats, hmerge, ?_⟩
  have hsegments : (segments.map SegmentColumn.segment).mapM (m.segmentValues t) =
      .ok (segments.map fun s => s.values.map fun value => (s.segment.header.createdTs, value)) := by
    rw [mapM_eq_ok, List.forall₂_map_left_iff, List.forall₂_map_right_iff]
    refine List.forall₂_same.mpr fun s _ => ?_
    rw [segmentValues, readColumn_eq s]
    rfl
  rw [mergeColumn, hsegments, bind_ok] at hmerge
  simp only [ht, Bool.not_true, Bool.false_eq_true, if_false, ← List.flatMap_def] at hmerge
  obtain ⟨outputData, -, hstats⟩ := bind_eq_ok.mp hmerge
  rw [entries]
  generalize (((segments.flatMap fun s => s.values.map fun value => (s.segment.header.createdTs, value)) ++
    m.insertedValues t delta).insertionSort fun a b => a.1 ≤ b.1).map Prod.snd = sorted at hstats ⊢
  cases sorted with
  | nil =>
    cases hstats
    exact ⟨rfl, rfl, rfl, fun hne => absurd rfl hne⟩
  | cons first rest =>
    cases hstats
    exact ⟨rfl, rfl, rfl, fun _ => ⟨rfl, summarizes_bounds t first rest⟩⟩

end ColumnMerger

/-- **A column merged with a store is the segments' values in the order of the list and
then the store's log**: each row that was inserted since the last clear once, where its
last insert stands; the statistics are those of all these values. -/
theorem merged_in_write_order (m : ColumnMerger) (t : DataType) (ht : t.isNumeric = true)
    (segments : List (SegmentColumn t m.columnIndex)) (hcreated : ∀ s ∈ segments, s.segment.header.createdTs = 0)
    (numColumns : Nat) (hcol : m.columnIndex < numColumns) (flushThreshold : UInt64) (writes : List Write)
    (hauto : ∀ w ∈ writes, w.Automatic) (hlen : writes.length < 2 ^ 64) (outStats : ColumnStats) :
    ∃ stats, m.mergeColumn t (segments.map SegmentColumn.segment)
      (some ((DeltaStore.new numColumns flushThreshold).run writes)) outStats =
        .ok (storeWords t.typeSize (segments.flatMap SegmentColumn.values ++
          (insertLog m.columnIndex writes).map fun e => ColumnMerger.valueOf t e.2), stats) ∧
      m.Summarizes t (segments.flatMap SegmentColumn.values ++
        (insertLog m.columnIndex writes).map fun e => ColumnMerger.valueOf t e.2) stats := by
  have hlogged := logged_run hcol flushThreshold hauto hlen
  generalize (DeltaStore.new numColumns flushThreshold).run writes = s at hlogged
  obtain ⟨stats, hmerge, hsummary⟩ := ColumnMerger.mergeColumn_summarized ht segments (some s) outStats
  obtain ⟨entries, hmem, hsorted, hstamps, hlog⟩ := hlogged
  have hzero : ∀ e ∈ segments.flatMap fun seg => seg.values.map fun value => (seg.segment.header.createdTs, value),
      e.1 = 0 := by
    intro e he
    obtain ⟨seg, hseg, he⟩ := List.mem_flatMap.mp he
    obtain ⟨value, -, rfl⟩ := List.mem_map.mp he
    exact hcreated seg hseg
  have hvalues : ((m.entries segments (some s)).insertionSort fun a b => a.1 ≤ b.1).map Prod.snd =
      segments.flatMap SegmentColumn.values ++
        (insertLog m.columnIndex writes).map fun e => ColumnMerger.valueOf t e.2 := by
    rw [ColumnMerger.entries, insertionSort_append_of_le]
    · rw [List.map_append, List.map_flatMap]
      congr 1
      · refine List.flatMap_congr fun seg _ => ?_
        rw [List.map_map]
        exact List.map_id _
      · exact Logged.sorted ⟨entries, hmem, hsorted, hstamps, hlog⟩ (ColumnMerger.valueOf t)
    · have hall : (segments.flatMap fun seg => seg.values.map fun value =>
          (seg.segment.header.createdTs, value)).Pairwise fun _ _ => True := List.pairwise_of_forall fun _ _ => trivial
      refine hall.imp_of_mem fun ha _ _ => ?_
      rw [hzero _ ha]
      exact Nat.zero_le _
    · intro a ha b _
      rw [hzero a ha]
      exact Nat.zero_le _
  rw [hvalues] at hmerge hsummary
  exact ⟨stats, hmerge, hsummary⟩

/-- A row that is written again, behind one that is deleted. -/
def rewrittenRows : List Write := [.insert 7 [[9]] 0, .insert 4 [[8]] 0, .insert 7 [[5]] 0, .delete 4 0]

theorem rewritten_in_write_order :
    let m : ColumnMerger := {columnType := .int32, encodingType := .plain}
    ∃ stats, m.mergeColumn .int32 [ColumnMerger.pairSegment] (some ((DeltaStore.new 1 100).run rewrittenRows)) {} =
        .ok (storeWords 4 [3, 1, 8, 5], stats) ∧
      m.Summarizes .int32 [3, 1, 8, 5] stats := by
  exact merged_in_write_order {columnType := .int32, encodingType := .plain} .int32 rfl [ColumnMerger.pairFirst]
    (fun s hs => by rw [List.mem_singleton.mp hs]; decide +kernel) 1 (by decide) 100 rewrittenRows (by decide)
    (by decide) {}

end ColumnarStore.Merger
