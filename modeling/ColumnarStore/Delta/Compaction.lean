import ColumnarStore.Delta.HandOff
import ColumnarStore.Delta.History

/-! Compaction.

A store is emptied when it is not flushing and its counter is zero. While no store is
handed out twice the counter is the number of inserts since the last hand-out, and what
was pending then until the flush is finished (`Counted`). Deletes are not counted, so
compaction loses those that came without an insert (`compaction_keeps_fresh_iff`). -/
namespace ColumnarStore.Delta
open Foundation

/-! ### Entries -/

namespace Write

def isInsert : Write → Bool
  | insert .. => true
  | _ => false

/-- The write leaves an entry in some column of a store with so many of them. -/
def LeavesEntry (numColumns : Nat) : Write → Prop
  | insert _ columnData _ => 0 < numColumns ∧ 0 < columnData.length
  | delete _ _ => 0 < numColumns
  | clear => False

end Write

/-- Column `col` has the entry that the write, under its own timestamp, left there. -/
def DeltaStore.HasEntry (s : DeltaStore) (col : Nat) : Write → Prop
  | .insert rowId columnData timestamp => ∃ d data, s.columns[col]? = some d ∧
    columnData[col]? = some data ∧ d.inserts[rowId]? = some (timestamp, data)
  | .delete rowId timestamp => ∃ d, s.columns[col]? = some d ∧ d.deletes[rowId]? = some timestamp
  | .clear => False

namespace DeltaStore
variable {s : DeltaStore} {numColumns col : Nat} {w : Write}

theorem HasEntry.leaves (h : s.HasEntry col w) (hlen : s.columns.length = numColumns) :
    w.LeavesEntry numColumns := by
  cases w with
  | insert rowId columnData timestamp =>
    obtain ⟨d, data, hd, hdata, -⟩ := h
    have hcol := (List.getElem?_eq_some_iff.mp hd).1
    have hin := (List.getElem?_eq_some_iff.mp hdata).1
    exact ⟨by omega, by omega⟩
  | delete rowId timestamp =>
    obtain ⟨d, hd, -⟩ := h
    have hcol := (List.getElem?_eq_some_iff.mp hd).1
    exact show 0 < numColumns by omega
  | clear => exact h

theorem not_hasEntry_clear : ¬ s.clear.HasEntry col w := by
  have hempty : ∀ d, s.clear.columns[col]? = some d → d = {} := by
    intro d hd
    obtain ⟨_, _, rfl⟩ := List.mem_map.mp (List.mem_of_getElem? hd)
    rfl
  cases w with
  | insert rowId columnData timestamp =>
    intro h
    obtain ⟨d, data, hd, -, hentry⟩ := h
    rw [hempty d hd] at hentry
    simp at hentry
  | delete rowId timestamp =>
    intro h
    obtain ⟨d, hd, hentry⟩ := h
    rw [hempty d hd] at hentry
    simp at hentry
  | clear => exact id

theorem length_columns_apply (s : DeltaStore) (w : Write) :
    (w.apply s).columns.length = s.columns.length := by
  cases w <;> simp [Write.apply, insert, delete, clear]

/-- A write that leaves entries leaves one in the first column. -/
theorem hasEntry_apply (hlen : s.columns.length = numColumns)
    (h : (s.stamped w).LeavesEntry numColumns) : (w.apply s).HasEntry 0 (s.stamped w) := by
  cases w with
  | insert rowId columnData timestamp =>
    obtain ⟨hcolumns, hdata⟩ := h
    have hcol : s.columns[0]? = some s.columns[0] := List.getElem?_eq_getElem (by omega)
    refine ⟨s.columns[0].insert rowId (s.stamp timestamp) columnData[0], columnData[0], ?_,
      List.getElem?_eq_getElem hdata, ?_⟩
    · simp [Write.apply, insert, hcol, List.getElem?_eq_getElem hdata]
    · rw [ColumnDelta.inserts_insert, if_pos rfl]
  | delete rowId timestamp =>
    have hcolumns : 0 < numColumns := h
    have hcol : s.columns[0]? = some s.columns[0] := List.getElem?_eq_getElem (by omega)
    refine ⟨s.columns[0].delete rowId (s.stamp timestamp), ?_, ?_⟩
    · simp [Write.apply, delete, hcol]
    · rw [ColumnDelta.deletes_delete, if_pos rfl]
  | clear => exact h

/-- One that leaves none leaves the columns as they are. -/
theorem columns_apply_of_not_leaves (hlen : s.columns.length = numColumns)
    (h : ¬ (s.stamped w).LeavesEntry numColumns) (hclear : w ≠ .clear) :
    (w.apply s).columns = s.columns := by
  cases w with
  | insert rowId columnData timestamp =>
    have hnone : numColumns = 0 ∨ columnData.length = 0 := by
      simp only [stamped, Write.LeavesEntry] at h
      omega
    rcases hnone with hzero | hzero
    · have hnil : s.columns = [] := List.length_eq_zero_iff.mp (hlen.trans hzero)
      simp [Write.apply, insert, hnil]
    · have hnil := List.length_eq_zero_iff.mp hzero
      refine List.ext_getElem? fun i => ?_
      simp [Write.apply, insert, hnil]
  | delete rowId timestamp =>
    have hnil : s.columns = [] := by
      refine List.length_eq_zero_iff.mp (hlen.trans (Nat.eq_zero_of_not_pos ?_))
      exact h
    simp [Write.apply, delete, hnil]
  | clear => exact absurd rfl hclear

end DeltaStore

/-! ### Sessions -/

namespace Session

/-- The rows of the hand-out of a store that is not finished. -/
def owed (s : Session) (i : Nat) : UInt64 :=
  match s.outstanding.find? fun h => h.store = i with
  | none => 0
  | some h => h.rows

/-- A flush is finished for a store that is handed out, with the rows it had pending then. -/
def Legal (s : Session) : ManagerCall → Prop
  | .finishFlush storeIdx flushedRows =>
    s.outstanding.find? (fun h => h.store = storeIdx) = some ⟨storeIdx, flushedRows⟩
  | _ => True

/-- Compaction takes no entry out of a store that was written since its last hand-out. -/
def KeepsFresh (s : Session) : ManagerCall → Prop
  | .compactStores => ∀ i st st', s.manager.stores[i]? = some st →
    s.manager.compactStores.stores[i]? = some st' →
    ∀ w ∈ s.fresh i, ∀ col, st.HasEntry col w → st'.HasEntry col w
  | _ => True

/-- When stores are compacted, those that are not flushing and took no insert since their
last hand-out, or a multiple of 2^64 of them, took no write that left an entry. -/
def FreshCounted (s : Session) : ManagerCall → Prop
  | .compactStores => ∀ i st, s.manager.stores[i]? = some st → st.flushing = false →
    (s.fresh i).countP Write.isInsert % 2 ^ 64 = 0 →
    ∀ w ∈ s.fresh i, ¬ w.LeavesEntry s.manager.numColumns
  | _ => True

/-- What holds of one store, given the writes since its last hand-out and what it owes. -/
structure StoreCounted (numColumns : Nat) (fresh : List Write) (owed : UInt64) (st : DeltaStore) :
    Prop where
  columns : st.columns.length = numColumns
  pending : st.pendingRows = UInt64.ofNat (fresh.countP Write.isInsert) + owed
  entries : (∀ w ∈ fresh, ∀ col, ¬ st.HasEntry col w) → ∀ w ∈ fresh, ¬ w.LeavesEntry numColumns

/-- Every store counts its inserts since the last hand-out, and what it owes. -/
structure Counted (s : Session) : Prop where
  tracks : s.Tracks
  stores : ∀ i st, s.manager.stores[i]? = some st →
    StoreCounted s.manager.numColumns (s.fresh i) (s.owed i) st
  absent : ∀ i, s.manager.stores[i]? = none → s.fresh i = []

theorem storeCounted_new (numColumns : Nat) (flushThreshold : UInt64) :
    StoreCounted numColumns [] 0 (.new numColumns flushThreshold) where
  columns := by simp [DeltaStore.new]
  pending := rfl
  entries _ w hw := by cases hw

theorem StoreCounted.apply {numColumns : Nat} {fresh : List Write} {owed : UInt64} {st : DeltaStore}
    (h : StoreCounted numColumns fresh owed st) {w : Write} (hclear : w ≠ .clear) :
    StoreCounted numColumns (fresh ++ [st.stamped w]) owed (w.apply st) where
  columns := (st.length_columns_apply w).trans h.columns
  pending := by
    rw [List.countP_append]
    cases w with
    | insert rowId columnData timestamp =>
      show st.pendingRows + 1 = _
      rw [h.pending]
      show _ = UInt64.ofNat (_ + 1) + owed
      rw [UInt64.ofNat_add]
      ac_rfl
    | delete rowId timestamp => exact h.pending
    | clear => exact absurd rfl hclear
  entries hnone := by
    by_cases hleaves : (st.stamped w).LeavesEntry numColumns
    · exact absurd (DeltaStore.hasEntry_apply h.columns hleaves) (hnone _ (by simp) 0)
    · have hsame := DeltaStore.columns_apply_of_not_leaves h.columns hleaves hclear
      have hbefore : ∀ w' ∈ fresh, ∀ col, ¬ st.HasEntry col w' := by
        intro w' hw' col hentry
        refine hnone w' (List.mem_append_left _ hw') col ?_
        simpa only [DeltaStore.HasEntry, hsame] using hentry
      intro w' hw'
      rcases List.mem_append.mp hw' with hw' | hw'
      · exact h.entries hbefore w' hw'
      · rw [List.mem_singleton.mp hw']
        exact hleaves

/-! ### Steps -/

section Steps
variable {s : Session} (h : s.Counted)
include h

theorem counted_write {w : Write} (hclear : w ≠ .clear) : (s.write w).Counted where
  tracks := tracks_write h.tracks w
  stores i st hst := by
    change (s.manager.stores.modify s.manager.activeStore (Write.apply · w))[i]? = some st at hst
    rw [List.getElem?_modify, Option.map_eq_map, Option.map_eq_some_iff] at hst
    obtain ⟨old, hold, hnew⟩ := hst
    show StoreCounted s.manager.numColumns (Function.update s.fresh s.manager.activeStore _ i)
      (s.owed i) st
    by_cases hi : s.manager.activeStore = i
    · subst hi
      have hcurrent : s.manager.currentStore = old :=
        Option.some.inj ((List.getElem?_eq_getElem s.manager.active_lt).symm.trans hold)
      rw [if_pos rfl] at hnew
      rw [Function.update_self, hcurrent, ← hnew]
      exact (h.stores _ old hold).apply hclear
    · rw [if_neg hi] at hnew
      rw [Function.update_of_ne (Ne.symm hi), ← hnew]
      exact h.stores i old hold
  absent i hi := by
    change (s.manager.stores.modify s.manager.activeStore (Write.apply · w))[i]? = none at hi
    rw [List.getElem?_modify, Option.map_eq_map, Option.map_eq_none_iff] at hi
    have hne : i ≠ s.manager.activeStore := by
      rintro rfl
      rw [List.getElem?_eq_getElem s.manager.active_lt] at hi
      cases hi
    exact (Function.update_of_ne hne _ _).trans (h.absent i hi)

/-- A store that is not flushing owes nothing. -/
theorem owed_of_not_flushing {i : Nat} (hi : s.manager.flushingAt i = false) : s.owed i = 0 := by
  have hnone : s.outstanding.find? (fun h => h.store = i) = none := by
    refine List.find?_eq_none.mpr fun x hx hstore => ?_
    have hflag := (h.tracks.flags i).mpr ⟨x, hx, by simpa using hstore⟩
    cases hi.symm.trans hflag
  rw [owed, hnone]

omit h in
/-- The store handed out owes what it has pending, and the others owe what they did. -/
theorem owed_handOut (honce : s.HandsOutOnce .getStoreForFlush)
    (hshould : s.manager.currentStore.shouldFlush = true) (i : Nat) :
    s.handOut.owed i =
      if i = s.manager.activeStore then s.manager.currentStore.pendingRows else s.owed i := by
  rcases s.handOut_cases with ⟨hnot, -⟩ | ⟨-, hout⟩
  · cases hnot.symm.trans hshould
  obtain ⟨hidx, -, -, -⟩ := s.manager.getStoreForFlush_of_shouldFlush hshould
  rw [hout]
  show (match (s.outstanding ++ [_]).find? _ with | none => (0 : UInt64) | some h => h.rows) = _
  rw [List.find?_append, owed]
  by_cases hi : i = s.manager.activeStore
  · have hnone : s.outstanding.find? (fun h => h.store = i) = none :=
      List.find?_eq_none.mpr fun x hx => by simpa [hi] using honce _ hidx x hx
    rw [hnone, if_pos hi]
    simp [hi]
  · rw [if_neg hi]
    cases s.outstanding.find? (fun h => h.store = i) with
    | none => simp [Ne.symm hi]
    | some x => rfl

/-- A store that is not there yet took nothing and owes nothing. -/
theorem storeCounted_spare {i : Nat} (hi : s.manager.stores.length ≤ i) :
    StoreCounted s.manager.numColumns (s.fresh i) (s.owed i)
      (.new s.manager.numColumns s.manager.flushThreshold) := by
  have hnone : s.manager.stores[i]? = none := List.getElem?_eq_none hi
  have hidle : s.manager.flushingAt i = false := by
    rw [DeltaStoreManager.flushingAt, hnone]
    rfl
  rw [h.absent i hnone, owed_of_not_flushing h hidle]
  exact storeCounted_new _ _

theorem counted_handOut (honce : s.HandsOutOnce .getStoreForFlush) : s.handOut.Counted := by
  have htracks := tracks_handOut h.tracks honce
  rcases s.handOut_cases with ⟨-, hsame⟩ | ⟨hshould, hout⟩
  · rw [hsame]
    exact h
  have howed := owed_handOut honce hshould
  have hstores : ∀ i, s.handOut.manager.stores[i]? =
      (s.manager.withSpare[i]?).map fun st => if s.manager.activeStore = i then st.beginFlush else st := by
    rw [hout]
    exact s.manager.getElem?_getStoreForFlush hshould
  have hcolumns : s.handOut.manager.numColumns = s.manager.numColumns := by
    rw [hout]
    exact s.manager.numColumns_getStoreForFlush
  have hfresh : s.handOut.fresh = Function.update s.fresh s.manager.activeStore [] := by rw [hout]
  have hactive := s.manager.active_lt
  refine ⟨htracks, fun i st hst => ?_, fun i hi => ?_⟩
  · rw [hstores, s.manager.getElem?_withSpare, Option.map_eq_some_iff] at hst
    obtain ⟨old, hold, hnew⟩ := hst
    rw [howed, hfresh, hcolumns]
    by_cases hi : i = s.manager.activeStore
    · subst hi
      rw [if_neg (by omega)] at hold
      have hcurrent : s.manager.currentStore = old :=
        Option.some.inj ((List.getElem?_eq_getElem hactive).symm.trans hold)
      rw [if_pos rfl] at hnew
      rw [if_pos rfl, Function.update_self, hcurrent, ← hnew]
      refine ⟨(h.stores _ old hold).columns, ?_, fun _ w hw => by cases hw⟩
      show old.pendingRows = 0 + old.pendingRows
      exact (UInt64.zero_add _).symm
    · rw [if_neg (Ne.symm hi)] at hnew
      rw [if_neg hi, Function.update_of_ne hi, ← hnew]
      split at hold
      · next hspare =>
        rw [← Option.some.inj hold]
        exact storeCounted_spare h (by omega)
      · exact h.stores i old hold
  · rw [hstores, s.manager.getElem?_withSpare, Option.map_eq_none_iff] at hi
    split at hi
    · cases hi
    · have hne : i ≠ s.manager.activeStore := by
        rintro rfl
        rw [List.getElem?_eq_getElem hactive] at hi
        cases hi
      rw [hfresh, Function.update_of_ne hne]
      exact h.absent i hi

/-- A finished store owes nothing, and the others owe what they did. -/
theorem owed_finish (storeIdx : Nat) (rows : UInt64) (i : Nat) :
    (s.finish storeIdx rows).owed i = if i = storeIdx then 0 else s.owed i := by
  have hfind : (s.outstanding.eraseP fun h => h.store = storeIdx).find? (fun h => h.store = i) =
      if i = storeIdx then none else s.outstanding.find? fun h => h.store = i := by
    by_cases hi : i = storeIdx
    · rw [if_pos hi]
      refine List.find?_eq_none.mpr fun x hx => ?_
      have hne := ((mem_eraseP_store h.tracks storeIdx x).mp hx).2
      simpa [hi] using hne
    · rw [if_neg hi]
      generalize s.outstanding = l
      induction l with
      | nil => rfl
      | cons y rest ih =>
        by_cases hy : y.store = storeIdx
        · have hother : y.store ≠ i := fun hyi => hi (hyi.symm.trans hy)
          rw [List.eraseP_cons_of_pos (by simpa using hy), List.find?_cons_of_neg (by simpa using hother)]
        · rw [List.eraseP_cons_of_neg (by simpa using hy), List.find?_cons, List.find?_cons, ih]
  show (match (s.outstanding.eraseP _).find? _ with | none => (0 : UInt64) | some h => h.rows) = _
  rw [hfind, owed]
  by_cases hi : i = storeIdx
  · rw [if_pos hi, if_pos hi]
  · rw [if_neg hi, if_neg hi]

theorem counted_finish {storeIdx : Nat} {rows : UInt64} (hlegal : s.Legal (.finishFlush storeIdx rows)) :
    (s.finish storeIdx rows).Counted where
  tracks := tracks_finish h.tracks storeIdx rows
  stores i st hst := by
    change (s.manager.stores.modify storeIdx fun s => s.endFlush rows)[i]? = some st at hst
    rw [List.getElem?_modify, Option.map_eq_map, Option.map_eq_some_iff] at hst
    obtain ⟨old, hold, hnew⟩ := hst
    have hcounted := h.stores i old hold
    rw [owed_finish h]
    by_cases hi : i = storeIdx
    · subst hi
      have howed : s.owed i = rows := by
        rw [owed, show s.outstanding.find? (fun h => h.store = i) = some ⟨i, rows⟩ from hlegal]
      rw [if_pos rfl] at hnew ⊢
      rw [← hnew]
      refine ⟨hcounted.columns, ?_, hcounted.entries⟩
      show old.pendingRows - rows = _
      rw [hcounted.pending, howed, UInt64.add_sub_cancel]
      exact (UInt64.add_zero _).symm
    · rw [if_neg (Ne.symm hi)] at hnew
      rw [if_neg hi, ← hnew]
      exact hcounted
  absent i hi := by
    change (s.manager.stores.modify storeIdx fun s => s.endFlush rows)[i]? = none at hi
    rw [List.getElem?_modify, Option.map_eq_map, Option.map_eq_none_iff] at hi
    exact h.absent i hi

omit h in
theorem getElem?_compactStores (i : Nat) : s.manager.compactStores.stores[i]? =
    (s.manager.stores[i]?).map fun st => if !st.flushing && st.pendingRows = 0 then st.clear else st :=
  List.getElem?_map ..

theorem counted_compactStores (hkeeps : s.KeepsFresh .compactStores) :
    (s.step .compactStores).Counted where
  tracks := tracks_step h.tracks .compactStores trivial
  stores i st hst := by
    change s.manager.compactStores.stores[i]? = some st at hst
    have hafter := hst
    rw [getElem?_compactStores, Option.map_eq_some_iff] at hst
    obtain ⟨old, hold, hnew⟩ := hst
    have hcounted := h.stores i old hold
    show StoreCounted s.manager.numColumns (s.fresh i) (s.owed i) st
    split at hnew
    · next hidle =>
      simp only [Bool.and_eq_true, decide_eq_true_eq] at hidle
      rw [← hnew]
      refine ⟨by simpa [DeltaStore.clear] using hcounted.columns, ?_, fun _ => hcounted.entries ?_⟩
      · rw [← hcounted.pending, hidle.2]
        rfl
      · intro w hw col hentry
        have hkept := hkeeps i old st hold hafter w hw col hentry
        rw [← hnew] at hkept
        exact DeltaStore.not_hasEntry_clear hkept
    · rw [← hnew]
      exact hcounted
  absent i hi := by
    change s.manager.compactStores.stores[i]? = none at hi
    rw [getElem?_compactStores, Option.map_eq_none_iff] at hi
    exact h.absent i hi

theorem counted_step (call : ManagerCall) (hlegal : s.Legal call) (honce : s.HandsOutOnce call)
    (hkeeps : s.KeepsFresh call) : (s.step call).Counted := by
  cases call with
  | insert rowId columnData timestamp => exact counted_write h (by simp)
  | delete rowId timestamp => exact counted_write h (by simp)
  | getStoreForFlush => exact counted_handOut h honce
  | finishFlush storeIdx rows => exact counted_finish h hlegal
  | compactStores => exact counted_compactStores h hkeeps

/-- The counter of an idle store is zero when it took no insert, or a multiple of 2^64. -/
theorem pending_eq_zero_iff {i : Nat} {st : DeltaStore} (hst : s.manager.stores[i]? = some st)
    (hidle : st.flushing = false) :
    st.pendingRows = 0 ↔ (s.fresh i).countP Write.isInsert % 2 ^ 64 = 0 := by
  have hflag : s.manager.flushingAt i = false := by
    rw [DeltaStoreManager.flushingAt, hst]
    exact hidle
  rw [(h.stores i st hst).pending, owed_of_not_flushing h hflag, UInt64.add_zero, ← UInt64.toNat_inj,
    UInt64.toNat_ofNat]
  rfl

theorem keepsFresh_iff (call : ManagerCall) : s.KeepsFresh call ↔ s.FreshCounted call := by
  cases call with
  | compactStores =>
    constructor
    · intro hkeeps i st hst hidle hcount
      have hzero := (pending_eq_zero_iff h hst hidle).mpr hcount
      have hcleared : s.manager.compactStores.stores[i]? = some st.clear := by
        rw [getElem?_compactStores, hst]
        simp [hidle, hzero]
      refine (h.stores i st hst).entries fun w hw col hentry => ?_
      exact DeltaStore.not_hasEntry_clear (hkeeps i st _ hst hcleared w hw col hentry)
    · intro hfresh i st st' hst hst' w hw col hentry
      rw [getElem?_compactStores, hst, Option.map_some, Option.some.injEq] at hst'
      split at hst'
      · next hidle =>
        simp only [Bool.and_eq_true, Bool.not_eq_true', decide_eq_true_eq] at hidle
        have hcount := (pending_eq_zero_iff h hst hidle.1).mp hidle.2
        exact absurd (hentry.leaves (h.stores i st hst).columns) (hfresh i st hst hidle.1 hcount w hw)
      · rw [← hst']
        exact hentry
  | _ => exact Iff.rfl

end Steps

theorem counted_new (numColumns : Nat) (flushThreshold : UInt64) :
    (new numColumns flushThreshold).Counted where
  tracks := tracks_new numColumns flushThreshold
  stores i st hst := by
    have hmem := List.mem_of_getElem? hst
    rw [List.mem_singleton.mp hmem]
    exact storeCounted_new numColumns flushThreshold
  absent _ _ := rfl

/-- **In a session that hands no store out twice, compaction keeps what was written since
the last hand-out exactly when no idle store that took no insert took a delete.** -/
theorem compaction_keeps_fresh_iff (numColumns : Nat) (flushThreshold : UInt64)
    (calls : List ManagerCall) (hlegal : Along step Legal (new numColumns flushThreshold) calls)
    (honce : Along step HandsOutOnce (new numColumns flushThreshold) calls) :
    Along step KeepsFresh (new numColumns flushThreshold) calls ↔
      Along step FreshCounted (new numColumns flushThreshold) calls := by
  refine along_congr Counted (fun s call h _ => keepsFresh_iff h call)
    (fun s call h hcall hkeeps => counted_step h call hcall.1 hcall.2 hkeeps)
    (counted_new numColumns flushThreshold) (along_and.mpr ⟨hlegal, honce⟩)

/-- A store that is flushed, refilled and compacted. -/
theorem flushed_keeps_fresh : Along step KeepsFresh (new 1 1) [.insert 1 [[1]] 0, .delete 1 0,
      .getStoreForFlush, .insert 2 [[2]] 0, .finishFlush 0 1, .compactStores] ↔
    Along step FreshCounted (new 1 1) [.insert 1 [[1]] 0, .delete 1 0, .getStoreForFlush,
      .insert 2 [[2]] 0, .finishFlush 0 1, .compactStores] := by
  refine compaction_keeps_fresh_iff 1 1 _ ⟨trivial, trivial, trivial, trivial, rfl, trivial, trivial⟩
    ⟨trivial, trivial, ?_, trivial, trivial, trivial, trivial⟩
  intro storeIdx _ h hh
  cases hh

/-- A store that took nothing but a delete: compaction drops it. -/
theorem deleted_not_kept : ¬ Along step KeepsFresh (new 1 1) [.delete 7 0, .compactStores] := by
  intro h
  obtain ⟨-, hkeeps, -⟩ := h
  have hentry := hkeeps 0 _ _ rfl rfl (.delete 7 1) (List.mem_singleton_self _) 0 ⟨_, rfl, by decide +kernel⟩
  exact DeltaStore.not_hasEntry_clear (s := (DeltaStore.new 1 1).delete 7 0) hentry

end Session

end ColumnarStore.Delta
