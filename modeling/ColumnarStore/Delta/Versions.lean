import ColumnarStore.Delta.PointReads

/-! Writes that bring their own timestamps.

A store keeps for a row the insert and the delete that arrived last, whatever their
timestamps. What a range read shows is therefore the newest version for every order of
arrival exactly when it cannot matter which ones came last (`order_independent_iff`). -/
namespace ColumnarStore.Delta
open Foundation

/-! ### Versions -/

namespace Write

def timestamp : Write → Timestamp
  | insert _ _ t => t
  | delete _ t => t
  | clear => 0

def row : Write → Option RowId
  | insert r _ _ => some r
  | delete r _ => some r
  | clear => none

/-- An insert comes with data for every column. -/
def Complete (numColumns : Nat) : Write → Prop
  | insert _ columnData _ => numColumns ≤ columnData.length
  | _ => True

/-- What the write, under its own timestamp, inserts for a row into a column. -/
def inserted (col : Nat) (rowId : RowId) : Write → Option (Timestamp × Bytes)
  | insert r columnData t => if r = rowId then columnData[col]?.map (t, ·) else none
  | _ => none

/-- The timestamp under which it deletes the row. -/
def deleted (rowId : RowId) : Write → Option Timestamp
  | delete r t => if r = rowId then some t else none
  | _ => none

end Write

/-- A set of writes, no two with the same timestamp and none with the timestamp 0. -/
structure VersionedWrites (numColumns : Nat) where
  writes : List Write
  explicit : ∀ w ∈ writes, w.timestamp ≠ 0
  distinct : (writes.map Write.timestamp).Nodup
  complete : ∀ w ∈ writes, w.Complete numColumns

/-- `w` is the write of the row with the largest timestamp. -/
def Newest (writes : List Write) (rowId : RowId) (w : Write) : Prop :=
  w ∈ writes ∧ w.row = some rowId ∧ ∀ w' ∈ writes, w'.row = some rowId → w'.timestamp ≤ w.timestamp

/-- Range reads show, in row order, every row whose newest write is an insert, with the
data of that insert. -/
def DeltaStore.ShowsNewest (s : DeltaStore) (numColumns : Nat) (writes : List Write) : Prop :=
  ∀ col < numColumns, ∀ a b : RowId, (s.getRange col a b []).Pairwise (fun x y => x.1 < y.1) ∧
    ∀ rowId data, (rowId, data) ∈ s.getRange col a b [] ↔ (a ≤ rowId ∧ rowId < b) ∧
      ∃ columnData t, Newest writes rowId (.insert rowId columnData t) ∧ columnData[col]? = some data

namespace VersionedWrites
variable {numColumns : Nat} (v : VersionedWrites numColumns)

/-- Applied to an empty store in any two orders the writes give the same range reads,
and these show the newest versions. -/
def OrderIndependent (flushThreshold : UInt64) : Prop :=
  ∀ order order' : List Write, order.Perm v.writes → order'.Perm v.writes →
    let s := (DeltaStore.new numColumns flushThreshold).run order
    let s' := (DeltaStore.new numColumns flushThreshold).run order'
    (∀ col a b, s.getRange col a b [] = s'.getRange col a b []) ∧ s.ShowsNewest numColumns v.writes

/-- What the writes insert for a row into a column. -/
def insertsOf (col : Nat) (rowId : RowId) : List (Timestamp × Bytes) :=
  v.writes.filterMap (Write.inserted col rowId)

def deletesOf (rowId : RowId) : List Timestamp := v.writes.filterMap (Write.deleted rowId)

/-- It cannot matter which insert and which delete of the row came last: all inserts have
the same data and are newer than all deletes, or all deletes are newer than all inserts. -/
def Unambiguous (col : Nat) (rowId : RowId) : Prop :=
  ((∀ e ∈ v.insertsOf col rowId, ∀ t ∈ v.deletesOf rowId, t < e.1) ∧
      ∀ e ∈ v.insertsOf col rowId, ∀ e' ∈ v.insertsOf col rowId, e.2 = e'.2) ∨
    (v.deletesOf rowId ≠ [] ∧ ∀ e ∈ v.insertsOf col rowId, ∀ t ∈ v.deletesOf rowId, e.1 < t)

end VersionedWrites

/-! ### The last arrivals -/

theorem getLast?_filterMap_concat {α β : Type*} (f : α → Option β) (l : List α) (x : α) :
    ((l ++ [x]).filterMap f).getLast? = (f x).or (l.filterMap f).getLast? := by
  rw [List.filterMap_append]
  cases hx : f x with
  | none => simp [hx]
  | some y => simp [hx]

/-- What a reader sees of a row whose last insert and last delete are given. -/
def shown (ins : Option (Timestamp × Bytes)) (del : Option Timestamp) : Option Bytes :=
  match ins, del with
  | none, _ => none
  | some e, none => some e.2
  | some e, some t => if t < e.1 then some e.2 else none

theorem ColumnDelta.visible_eq_shown (d : ColumnDelta) (rowId : RowId) :
    d.visible rowId = shown d.inserts[rowId]? d.deletes[rowId]? := by
  unfold visible live shown
  cases d.inserts[rowId]? with
  | none => rfl
  | some e =>
    cases d.deletes[rowId]? with
    | none => rfl
    | some t => simp

/-- A column whose maps hold the last arrivals of `order`. -/
structure ColumnDelta.Holds (d : ColumnDelta) (col : Nat) (order : List Write) : Prop where
  inserts : ∀ rowId : RowId, d.inserts[rowId]? = (order.filterMap (Write.inserted col rowId)).getLast?
  deletes : ∀ rowId : RowId, d.deletes[rowId]? = (order.filterMap (Write.deleted rowId)).getLast?

theorem holds_apply {s : DeltaStore} {order : List Write} {col : Nat} {d : ColumnDelta}
    (hd : s.columns[col]? = some d) (h : d.Holds col order) {w : Write} (hw : w.timestamp ≠ 0) :
    ∃ d', (w.apply s).columns[col]? = some d' ∧ d'.Holds col (order ++ [w]) := by
  cases w with
  | clear => exact absurd rfl hw
  | insert r columnData t =>
    have hstamp : s.stamp t = t := if_neg hw
    cases hdata : columnData[col]? with
    | none =>
      refine ⟨d, ?_, fun rowId => ?_, fun rowId => ?_⟩
      · simp [Write.apply, DeltaStore.insert, hd, hdata]
      · rw [getLast?_filterMap_concat, h.inserts]
        simp [Write.inserted, hdata]
      · rw [getLast?_filterMap_concat, h.deletes]
        rfl
    | some data =>
      refine ⟨d.insert r t data, ?_, fun rowId => ?_, fun rowId => ?_⟩
      · simp [Write.apply, DeltaStore.insert, hd, hdata, hstamp]
      · rw [getLast?_filterMap_concat, ColumnDelta.inserts_insert, h.inserts]
        by_cases hr : r = rowId <;> simp [Write.inserted, hr, hdata]
      · rw [getLast?_filterMap_concat]
        exact h.deletes rowId
  | delete r t =>
    have hstamp : s.stamp t = t := if_neg hw
    refine ⟨d.delete r t, ?_, fun rowId => ?_, fun rowId => ?_⟩
    · simp [Write.apply, DeltaStore.delete, hd, hstamp]
    · rw [getLast?_filterMap_concat]
      exact h.inserts rowId
    · rw [getLast?_filterMap_concat, ColumnDelta.deletes_delete, h.deletes]
      by_cases hr : r = rowId <;> simp [Write.deleted, hr]

/-- After writes with timestamps of their own every column holds the last arrivals. -/
theorem holds_run {numColumns : Nat} (flushThreshold : UInt64) {order : List Write}
    (hexplicit : ∀ w ∈ order, w.timestamp ≠ 0) {col : Nat} (hcol : col < numColumns) :
    ∃ d, ((DeltaStore.new numColumns flushThreshold).run order).columns[col]? = some d ∧
      d.Holds col order := by
  induction order using List.reverseRecOn with
  | nil =>
    refine ⟨{}, ?_, fun rowId => ?_, fun rowId => ?_⟩
    · simp [DeltaStore.run, DeltaStore.new, hcol]
    · simp
    · simp
  | append_singleton before w ih =>
    obtain ⟨d, hd, h⟩ := ih fun w' hw' => hexplicit w' (List.mem_append_left _ hw')
    rw [DeltaStore.run_append]
    exact holds_apply hd h (hexplicit w (List.mem_append_right _ (List.mem_singleton_self w)))

/-! ### The newest version -/

theorem perm_concat_of_mem {α : Type*} {l : List α} {x : α} (h : x ∈ l) :
    ∃ rest, l.Perm (rest ++ [x]) := by
  obtain ⟨a, b, rfl⟩ := List.append_of_mem h
  exact ⟨a ++ b, List.perm_middle.trans (List.perm_append_singleton x (a ++ b)).symm⟩

/-- Among given inserts and deletes of a row, `data` is what the newest one leaves. -/
def NewestData (ins : List (Timestamp × Bytes)) (del : List Timestamp) (data : Bytes) : Prop :=
  ∃ t, (t, data) ∈ ins ∧ (∀ e ∈ ins, e.1 ≤ t) ∧ ∀ t' ∈ del, t' ≤ t

namespace VersionedWrites
variable {numColumns : Nat} {v : VersionedWrites numColumns} {col : Nat} {rowId : RowId}

theorem mem_insertsOf {e : Timestamp × Bytes} : e ∈ v.insertsOf col rowId ↔
    ∃ columnData, Write.insert rowId columnData e.1 ∈ v.writes ∧ columnData[col]? = some e.2 := by
  rw [insertsOf, List.mem_filterMap]
  constructor
  · intro h
    obtain ⟨w, hw, he⟩ := h
    cases w with
    | insert r columnData t =>
      simp only [Write.inserted, Option.ite_none_right_eq_some, Option.map_eq_some_iff] at he
      obtain ⟨rfl, data, hdata, rfl⟩ := he
      exact ⟨columnData, hw, hdata⟩
    | delete r t => cases he
    | clear => cases he
  · intro h
    obtain ⟨columnData, hw, hdata⟩ := h
    exact ⟨_, hw, by simp [Write.inserted, hdata]⟩

theorem mem_deletesOf {t : Timestamp} : t ∈ v.deletesOf rowId ↔ Write.delete rowId t ∈ v.writes := by
  rw [deletesOf, List.mem_filterMap]
  constructor
  · intro h
    obtain ⟨w, hw, ht⟩ := h
    cases w with
    | insert r columnData t => cases ht
    | delete r t =>
      simp only [Write.deleted, Option.ite_none_right_eq_some, Option.some.injEq] at ht
      obtain ⟨rfl, rfl⟩ := ht
      exact hw
    | clear => cases ht
  · exact fun hw => ⟨_, hw, by simp [Write.deleted]⟩

/-- Writes with the same timestamp are the same write. -/
theorem eq_of_timestamp {w w' : Write} (hw : w ∈ v.writes) (hw' : w' ∈ v.writes)
    (h : w.timestamp = w'.timestamp) : w = w' := List.inj_on_of_nodup_map v.distinct hw hw' h

theorem insert_ne_delete {e : Timestamp × Bytes} {t : Timestamp} (he : e ∈ v.insertsOf col rowId)
    (ht : t ∈ v.deletesOf rowId) : e.1 ≠ t := by
  obtain ⟨columnData, hw, -⟩ := mem_insertsOf.mp he
  intro h
  cases eq_of_timestamp hw (mem_deletesOf.mp ht) h

/-- The newest write of a row, read off the row's inserts and deletes. -/
theorem newest_iff (hcol : col < numColumns) {data : Bytes} :
    (∃ columnData t, Newest v.writes rowId (.insert rowId columnData t) ∧ columnData[col]? = some data) ↔
      NewestData (v.insertsOf col rowId) (v.deletesOf rowId) data := by
  constructor
  · intro h
    obtain ⟨columnData, t, ⟨hmem, -, hmax⟩, hdata⟩ := h
    refine ⟨t, mem_insertsOf.mpr ⟨columnData, hmem, hdata⟩, fun e he => ?_, fun t' ht' => ?_⟩
    · obtain ⟨_, hw, -⟩ := mem_insertsOf.mp he
      exact hmax _ hw rfl
    · exact hmax _ (mem_deletesOf.mp ht') rfl
  · intro h
    obtain ⟨t, hmem, hins, hdel⟩ := h
    obtain ⟨columnData, hw, hdata⟩ := mem_insertsOf.mp hmem
    refine ⟨columnData, t, ⟨hw, rfl, fun w' hw' hrow => ?_⟩, hdata⟩
    cases w' with
    | insert r columnData' t' =>
      cases hrow
      have hlen : col < columnData'.length := hcol.trans_le (v.complete _ hw')
      exact hins (t', columnData'[col]) (mem_insertsOf.mpr ⟨columnData', hw', List.getElem?_eq_getElem hlen⟩)
    | delete r t' =>
      cases hrow
      exact hdel t' (mem_deletesOf.mpr hw')
    | clear => cases hrow

/-- Some insert of a row is the newest. -/
theorem exists_newest_insert (h : v.insertsOf col rowId ≠ []) :
    ∃ m ∈ v.insertsOf col rowId, ∀ e ∈ v.insertsOf col rowId, e.1 ≤ m.1 := by
  have hne : (v.insertsOf col rowId).toFinset.Nonempty := List.toFinset_nonempty_iff _ |>.mpr h
  obtain ⟨m, hm, hmax⟩ := (v.insertsOf col rowId).toFinset.exists_max_image (fun e => e.1.toNat) hne
  refine ⟨m, List.mem_toFinset.mp hm, fun e he => ?_⟩
  exact UInt64.le_iff_toNat_le.mpr (hmax e (List.mem_toFinset.mpr he))

/-! ### What comes last -/

section LastArrivals
variable {ins : Option (Timestamp × Bytes)} {del : Option Timestamp}

/-- Whatever came last, an unambiguous row shows its newest version. -/
theorem shown_of_unambiguous (h : v.Unambiguous col rowId)
    (hins : ∀ e, ins = some e → e ∈ v.insertsOf col rowId)
    (hins' : ins = none → v.insertsOf col rowId = [])
    (hdel : ∀ t, del = some t → t ∈ v.deletesOf rowId)
    (hdel' : del = none → v.deletesOf rowId = []) (data : Bytes) :
    shown ins del = some data ↔ NewestData (v.insertsOf col rowId) (v.deletesOf rowId) data := by
  cases ins with
  | none =>
    rw [hins' rfl]
    refine iff_of_false (fun h => by cases h) ?_
    intro h'
    obtain ⟨t, hmem, -⟩ := h'
    cases hmem
  | some e =>
    have he := hins e rfl
    rcases h with ⟨hnewer, hsame⟩ | ⟨hsome, holder⟩
    · have hshown : shown (some e) del = some e.2 := by
        cases del with
        | none => rfl
        | some t => exact if_pos (hnewer e he t (hdel t rfl))
      obtain ⟨m, hm, hmax⟩ := exists_newest_insert (List.ne_nil_of_mem he)
      rw [hshown, Option.some.injEq]
      constructor
      · rintro rfl
        refine ⟨m.1, ?_, hmax, fun t ht => UInt64.le_of_lt (hnewer m hm t ht)⟩
        rw [hsame e he m hm]
        exact hm
      · intro h
        obtain ⟨t, hmem, -⟩ := h
        exact hsame e he (t, data) hmem
    · cases del with
      | none => exact absurd (hdel' rfl) hsome
      | some t =>
        have ht := hdel t rfl
        have hnot : ¬ t < e.1 := UInt64.not_lt.mpr (UInt64.le_of_lt (holder e he t ht))
        refine iff_of_false (fun hshown => by simp [shown, hnot] at hshown) ?_
        intro h
        obtain ⟨t', hmem, -, hle⟩ := h
        exact absurd (holder (t', data) hmem t ht) (UInt64.not_lt.mpr (hle t ht))

/-- A row that shows its newest version whatever came last is unambiguous. -/
theorem unambiguous_of_shown
    (h : ∀ e ∈ v.insertsOf col rowId, ∀ del : Option Timestamp,
      (∀ t, del = some t → t ∈ v.deletesOf rowId) → (del = none → v.deletesOf rowId = []) →
      ∀ data, shown (some e) del = some data ↔
        NewestData (v.insertsOf col rowId) (v.deletesOf rowId) data) :
    v.Unambiguous col rowId := by
  by_cases hempty : v.insertsOf col rowId = []
  · exact .inl ⟨fun e he => by simp [hempty] at he, fun e he => by simp [hempty] at he⟩
  obtain ⟨m, hm, hmax⟩ := exists_newest_insert hempty
  by_cases hover : ∀ t ∈ v.deletesOf rowId, t < m.1
  · -- The newest write is an insert, so every order has to show its data.
    have hnewest : NewestData (v.insertsOf col rowId) (v.deletesOf rowId) m.2 :=
      ⟨m.1, hm, hmax, fun t ht => UInt64.le_of_lt (hover t ht)⟩
    have hafter : ∀ e ∈ v.insertsOf col rowId, ∀ t ∈ v.deletesOf rowId, t < e.1 ∧ e.2 = m.2 := by
      intro e he t ht
      have hshown := (h e he (some t) (fun t' ht' => by cases ht'; exact ht) (fun h => by cases h) m.2).mpr
        hnewest
      simpa [shown] using hshown
    refine .inl ⟨fun e he t ht => (hafter e he t ht).1, ?_⟩
    have hdata : ∀ e ∈ v.insertsOf col rowId, e.2 = m.2 := by
      intro e he
      cases hdel : v.deletesOf rowId with
      | nil =>
        have hshown := (h e he none (fun t ht => by cases ht) (fun _ => hdel) m.2).mpr hnewest
        exact Option.some.inj hshown
      | cons t rest => exact (hafter e he t (by simp [hdel])).2
    exact fun e he e' he' => (hdata e he).trans (hdata e' he').symm
  · -- The newest write is a delete, so no order may show the row.
    obtain ⟨t₀, ht₀, hle⟩ : ∃ t₀ ∈ v.deletesOf rowId, m.1 ≤ t₀ := by simpa using hover
    have hlt : m.1 < t₀ := UInt64.lt_of_le_of_ne hle (insert_ne_delete hm ht₀)
    refine .inr ⟨List.ne_nil_of_mem ht₀, fun e he t ht => ?_⟩
    have hnone : ¬ t < e.1 := by
      intro hnewer
      obtain ⟨t', hmem, -, hdel⟩ :=
        (h e he (some t) (fun t' ht' => by cases ht'; exact ht) (fun h => by cases h) e.2).mp (if_pos hnewer)
      exact absurd (UInt64.lt_of_lt_of_le hlt (hdel t₀ ht₀)) (UInt64.not_lt.mpr (hmax (t', e.2) hmem))
    exact UInt64.lt_of_le_of_ne (UInt64.not_lt.mp hnone) (insert_ne_delete he ht)

end LastArrivals

/-! ### Orders of arrival -/

section Orders
variable {flushThreshold : UInt64} {order : List Write}

theorem explicit_of_perm (hperm : order.Perm v.writes) : ∀ w ∈ order, w.timestamp ≠ 0 :=
  fun w hw => v.explicit w (hperm.mem_iff.mp hw)

/-- A range read after a run shows what came last. -/
theorem mem_getRange_run (hperm : order.Perm v.writes) (hcol : col < numColumns) {a b : RowId}
    {data : Bytes} :
    (rowId, data) ∈ ((DeltaStore.new numColumns flushThreshold).run order).getRange col a b [] ↔
      (a ≤ rowId ∧ rowId < b) ∧ shown (order.filterMap (Write.inserted col rowId)).getLast?
        (order.filterMap (Write.deleted rowId)).getLast? = some data := by
  obtain ⟨d, hd, hholds⟩ := holds_run flushThreshold (explicit_of_perm hperm) hcol
  rw [← hholds.inserts, ← hholds.deletes, ← d.visible_eq_shown]
  exact DeltaStore.mem_rangeRows hd a b rowId data

theorem mem_getLast? {α : Type} {f : Write → Option α} (hperm : order.Perm v.writes) {x : α}
    (h : (order.filterMap f).getLast? = some x) : x ∈ v.writes.filterMap f :=
  (hperm.filterMap f).mem_iff.mp (List.mem_of_getLast? h)

theorem eq_nil_of_getLast? {α : Type} {f : Write → Option α} (hperm : order.Perm v.writes)
    (h : (order.filterMap f).getLast? = none) : v.writes.filterMap f = [] := by
  have hnil := List.getLast?_eq_none_iff.mp h
  exact ((hnil ▸ hperm.filterMap f).symm).eq_nil

/-- Some order ends with a given insert and a given delete of a row, if there is one. -/
theorem exists_last {e : Timestamp × Bytes} (he : e ∈ v.insertsOf col rowId) {del : Option Timestamp}
    (hdel : ∀ t, del = some t → t ∈ v.deletesOf rowId) (hdel' : del = none → v.deletesOf rowId = []) :
    ∃ order : List Write, order.Perm v.writes ∧
      (order.filterMap (Write.inserted col rowId)).getLast? = some e ∧
      (order.filterMap (Write.deleted rowId)).getLast? = del := by
  obtain ⟨columnData, hw, hdata⟩ := mem_insertsOf.mp he
  obtain ⟨rest, hrest⟩ := perm_concat_of_mem hw
  have hlast : ∀ l, ((l ++ [Write.insert rowId columnData e.1]).filterMap
      (Write.inserted col rowId)).getLast? = some e := by
    intro l
    rw [getLast?_filterMap_concat]
    simp [Write.inserted, hdata]
  cases del with
  | none =>
    refine ⟨_, hrest.symm, hlast _, ?_⟩
    have hnil : (rest ++ [Write.insert rowId columnData e.1]).filterMap (Write.deleted rowId) = [] :=
      List.Perm.eq_nil ((hrest.filterMap _).symm.trans (.of_eq (hdel' rfl)))
    rw [hnil]
    rfl
  | some t =>
    have ht : Write.delete rowId t ∈ rest := by
      have hmem := hrest.mem_iff.mp (mem_deletesOf.mp (hdel t rfl))
      simpa using hmem
    obtain ⟨rest', hrest'⟩ := perm_concat_of_mem ht
    refine ⟨rest' ++ [.delete rowId t] ++ [.insert rowId columnData e.1], ?_, hlast _, ?_⟩
    · exact (hrest.trans (hrest'.append_right _)).symm
    · rw [getLast?_filterMap_concat, getLast?_filterMap_concat]
      simp [Write.deleted]

theorem showsNewest_of_unambiguous
    (h : ∀ col < numColumns, ∀ rowId : RowId, rowId.toNat < 2 ^ 64 - 1 → v.Unambiguous col rowId)
    (hperm : order.Perm v.writes) :
    ((DeltaStore.new numColumns flushThreshold).run order).ShowsNewest numColumns v.writes := by
  intro col hcol a b
  refine ⟨?_, fun rowId data => ?_⟩
  · exact (DeltaStore.rangeRows_ascending _ col a b).imp fun h => UInt64.lt_iff_toNat_lt.mpr h
  · rw [mem_getRange_run hperm hcol, newest_iff hcol]
    refine and_congr_right fun hrange => ?_
    have hrow : rowId.toNat < 2 ^ 64 - 1 := by
      have hlt := UInt64.lt_iff_toNat_lt.mp hrange.2
      have hb := UInt64.toNat_lt b
      omega
    exact shown_of_unambiguous (h col hcol rowId hrow) (fun e he => mem_getLast? hperm he)
      (fun hnone => eq_nil_of_getLast? hperm hnone) (fun t ht => mem_getLast? hperm ht)
      (fun hnone => eq_nil_of_getLast? hperm hnone) data

theorem numColumns_run (order : List Write) :
    ((DeltaStore.new numColumns flushThreshold).run order).columns.length = numColumns := by
  induction order using List.reverseRecOn with
  | nil => simp [DeltaStore.run, DeltaStore.new]
  | append_singleton before w ih =>
    rw [DeltaStore.run_append]
    cases w <;> simpa [DeltaStore.run, Write.apply, DeltaStore.insert, DeltaStore.delete, DeltaStore.clear]
      using ih

/-- Two stores that show the newest versions of the same writes show the same. -/
theorem getRange_eq_of_showsNewest {s s' : DeltaStore} (hs : s.columns.length = numColumns)
    (hs' : s'.columns.length = numColumns) (h : s.ShowsNewest numColumns v.writes)
    (h' : s'.ShowsNewest numColumns v.writes) (col : Nat) (a b : RowId) :
    s.getRange col a b [] = s'.getRange col a b [] := by
  by_cases hcol : col < numColumns
  · obtain ⟨hasc, hmem⟩ := h col hcol a b
    obtain ⟨hasc', hmem'⟩ := h' col hcol a b
    have hirrefl : Std.Irrefl fun x y : RowId × Bytes => x.1 < y.1 := ⟨fun x => UInt64.lt_irrefl x.1⟩
    have hantisymm : Std.Antisymm fun x y : RowId × Bytes => x.1 < y.1 :=
      ⟨fun x y hxy hyx => absurd hxy (UInt64.not_lt.mpr (UInt64.le_of_lt hyx))⟩
    refine hasc.eq_of_mem_iff hasc' ?_
    intro e
    obtain ⟨rowId, data⟩ := e
    rw [hmem, hmem']
  · have hout : ∀ s : DeltaStore, s.columns.length = numColumns → s.getRange col a b [] = [] := by
      intro s hlen
      rw [DeltaStore.getRange, List.getElem?_eq_none (by omega)]
    rw [hout s hs, hout s' hs']

end Orders

end VersionedWrites

/-- **Range reads are independent of the order of arrival, and show the newest versions,
exactly when no row that a range can contain depends on which of its writes came last.** -/
theorem VersionedWrites.order_independent_iff {numColumns : Nat} (flushThreshold : UInt64)
    (v : VersionedWrites numColumns) :
    v.OrderIndependent flushThreshold ↔
      ∀ col < numColumns, ∀ rowId : RowId, rowId.toNat < 2 ^ 64 - 1 → v.Unambiguous col rowId := by
  constructor
  · intro h col hcol rowId hrow
    refine unambiguous_of_shown fun e he del hdel hdel' data => ?_
    obtain ⟨order, hperm, hlast, hlastDelete⟩ := exists_last he hdel hdel'
    obtain ⟨-, hshows⟩ := h order order hperm hperm
    have hrange := (hshows col hcol rowId (rowId + 1)).2 rowId data
    have hin := (DeltaStore.lt_succ_iff hrow).mpr rfl
    rw [mem_getRange_run hperm hcol, newest_iff hcol, hlast, hlastDelete] at hrange
    exact (and_congr_right_iff.mp hrange) hin
  · intro h order order' hperm hperm'
    have hshows : ((DeltaStore.new numColumns flushThreshold).run order).ShowsNewest numColumns v.writes :=
      showsNewest_of_unambiguous h hperm
    have hshows' : ((DeltaStore.new numColumns flushThreshold).run order').ShowsNewest numColumns v.writes :=
      showsNewest_of_unambiguous h hperm'
    exact ⟨getRange_eq_of_showsNewest (numColumns_run order) (numColumns_run order') hshows hshows', hshows⟩

/-- Two inserts of a row, the newer one arriving first: the older one overwrites it. -/
def VersionedWrites.twoInserts : VersionedWrites 1 where
  writes := [.insert 7 [[1]] 20, .insert 7 [[2]] 10]
  explicit := by decide
  distinct := by decide
  complete := by simp [Write.Complete]

theorem VersionedWrites.twoInserts_not_order_independent : ¬ twoInserts.OrderIndependent 100000 := by
  intro h
  obtain ⟨hsame, -⟩ := h twoInserts.writes twoInserts.writes.reverse (.refl _) (List.reverse_perm _)
  have hleft : ((DeltaStore.new 1 100000).run twoInserts.writes).getRange 0 7 8 [] = [(7, [2])] := by
    decide +kernel
  have hright : ((DeltaStore.new 1 100000).run twoInserts.writes.reverse).getRange 0 7 8 [] = [(7, [1])] := by
    decide +kernel
  have hboth := hleft.symm.trans ((hsame 0 7 8).trans hright)
  exact absurd hboth (by decide)

end ColumnarStore.Delta
