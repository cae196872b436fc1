import ColumnarStore.Delta.Manager

/-! Handing stores out.

The flag of a store says whether it is handed out, as long as no store is handed out
twice before it is finished (`Tracks`). Rotation does not look at the flag of the store
it makes active; it comes back to a store still being flushed when two hand-outs follow
each other without a finished flush between them (`flush_exclusive_iff`). -/
namespace ColumnarStore.Delta
open Foundation

/-! ### Flags -/

namespace DeltaStoreManager
variable (m : DeltaStoreManager)

/-- The flag of a store; a store that is not there is not flushing. -/
def flushingAt (i : Nat) : Bool := m.stores[i]?.any DeltaStore.flushing

theorem flushing_currentStore : m.currentStore.flushing = m.flushingAt m.activeStore := by
  rw [flushingAt, List.getElem?_eq_getElem m.active_lt]
  rfl

theorem flushing_apply (w : Write) (s : DeltaStore) : (w.apply s).flushing = s.flushing := by
  cases w <;> rfl

theorem flushingAt_write (w : Write) (i : Nat) : (m.write w).flushingAt i = m.flushingAt i := by
  rw [flushingAt, flushingAt, write, List.getElem?_modify]
  cases m.stores[i]? with
  | none => rfl
  | some s =>
    show (if m.activeStore = i then w.apply s else s).flushing = s.flushing
    split
    · exact flushing_apply w s
    · rfl

theorem flushingAt_finishFlush (storeIdx : Nat) (rows : UInt64) (i : Nat) :
    (m.finishFlush storeIdx rows).flushingAt i = (m.flushingAt i && decide (i ≠ storeIdx)) := by
  rw [flushingAt, flushingAt, finishFlush, List.getElem?_modify]
  cases m.stores[i]? with
  | none => rfl
  | some s =>
    show (if storeIdx = i then s.endFlush rows else s).flushing = (s.flushing && decide (i ≠ storeIdx))
    by_cases h : storeIdx = i
    · simp [h, DeltaStore.endFlush]
    · simp [h, Ne.symm h]

theorem flushingAt_compactStores (i : Nat) : m.compactStores.flushingAt i = m.flushingAt i := by
  rw [flushingAt, flushingAt, compactStores, List.getElem?_map]
  cases m.stores[i]? with
  | none => rfl
  | some s =>
    show (if !s.flushing && s.pendingRows = 0 then s.clear else s).flushing = s.flushing
    split <;> rfl

theorem getElem?_withSpare (i : Nat) : m.withSpare[i]? =
    if m.stores.length = 1 ∧ i = 1 then some (.new m.numColumns m.flushThreshold) else m.stores[i]? := by
  unfold withSpare
  by_cases hone : m.stores.length = 1
  · rw [if_pos hone]
    by_cases hi : i = 1
    · simp [hone, hi]
    · rw [if_neg fun h => hi h.2, List.getElem?_append]
      split
      · rfl
      · next hge =>
        have hpast : 1 ≤ i - m.stores.length := by omega
        rw [List.getElem?_eq_none (by simpa using hpast), List.getElem?_eq_none (by omega)]
  · rw [if_neg hone, if_neg (by simp [hone])]

/-- What a hand-out leaves: a spare if there was a single store, and the active one flushing. -/
theorem getElem?_getStoreForFlush (h : m.currentStore.shouldFlush = true) (i : Nat) :
    m.getStoreForFlush.1.stores[i]? =
      (m.withSpare[i]?).map fun st => if m.activeStore = i then st.beginFlush else st := by
  unfold getStoreForFlush
  rw [if_pos h]
  exact List.getElem?_modify ..

theorem numColumns_getStoreForFlush : m.getStoreForFlush.1.numColumns = m.numColumns := by
  unfold getStoreForFlush
  split <;> rfl

/-- The store handed out gets its flag, and the next one becomes active. -/
theorem getStoreForFlush_of_shouldFlush (h : m.currentStore.shouldFlush = true) :
    m.getStoreForFlush.2 = some m.activeStore ∧
      m.getStoreForFlush.1.activeStore = m.nextActive ∧ m.nextActive ≠ m.activeStore ∧
      ∀ i, m.getStoreForFlush.1.flushingAt i = (m.flushingAt i || decide (i = m.activeStore)) := by
  have hspare := m.two_le_withSpare
  have hlt := m.active_lt
  rw [getStoreForFlush, if_pos h]
  refine ⟨rfl, rfl, ?_, fun i => ?_⟩
  · unfold nextActive
    by_cases hwrap : m.activeStore + 1 < m.withSpare.length
    · rw [Nat.mod_eq_of_lt hwrap]
      omega
    · have hle : m.stores.length ≤ m.withSpare.length := by
        unfold withSpare
        split <;> simp
      have hlast : m.activeStore + 1 = m.withSpare.length := by omega
      rw [hlast, Nat.mod_self]
      omega
  · show (m.withSpare.modify m.activeStore DeltaStore.beginFlush)[i]?.any _ = _
    rw [List.getElem?_modify, getElem?_withSpare, flushingAt]
    by_cases hi : i = m.activeStore
    · have hnot : ¬ (m.stores.length = 1 ∧ i = 1) := by omega
      rw [if_neg hnot, hi, List.getElem?_eq_getElem hlt]
      simp [DeltaStore.beginFlush]
    · by_cases hnew : m.stores.length = 1 ∧ i = 1
      · rw [if_pos hnew, List.getElem?_eq_none (by omega)]
        simp [hi, Ne.symm hi, DeltaStore.new]
      · rw [if_neg hnew]
        cases m.stores[i]? <;> simp [hi, Ne.symm hi]

end DeltaStoreManager

/-! ### Sessions -/

namespace Session

/-- The active store is not flushing, and no store is handed out before the flush it was
handed out for earlier is finished. -/
def Exclusive (s : Session) : Prop :=
  s.manager.currentStore.flushing = false ∧
    ∀ storeIdx, s.manager.getStoreForFlush.2 = some storeIdx → ∀ h ∈ s.outstanding, h.store ≠ storeIdx

/-- A hand-out makes no store active that is still being flushed. -/
def RotatesFree (s : Session) : ManagerCall → Prop
  | .getStoreForFlush => s.manager.currentStore.shouldFlush = true →
    s.manager.flushingAt s.manager.nextActive = false
  | _ => True

/-- No store is handed out that still is. -/
def HandsOutOnce (s : Session) : ManagerCall → Prop
  | .getStoreForFlush => ∀ storeIdx, s.manager.getStoreForFlush.2 = some storeIdx →
    ∀ h ∈ s.outstanding, h.store ≠ storeIdx
  | _ => True

/-- The flags say which stores are handed out, none twice. -/
structure Tracks (s : Session) : Prop where
  flags : ∀ i, s.manager.flushingAt i = true ↔ ∃ h ∈ s.outstanding, h.store = i
  once : (s.outstanding.map HandOut.store).Nodup

theorem tracks_new (numColumns : Nat) (flushThreshold : UInt64) : Tracks (new numColumns flushThreshold) where
  flags i := by
    have hnone : (new numColumns flushThreshold).manager.flushingAt i = false := by
      rw [DeltaStoreManager.flushingAt]
      show ([DeltaStore.new numColumns flushThreshold][i]?).any _ = false
      cases i <;> rfl
    rw [hnone]
    simp [new]
  once := List.nodup_nil

theorem tracks_write {s : Session} (h : s.Tracks) (w : Write) : (s.write w).Tracks where
  flags i := (Bool.eq_iff_iff.mp (s.manager.flushingAt_write w i)).trans (h.flags i)
  once := h.once

/-- The hand-out a finished flush is taken for, if its store is handed out at all. -/
theorem mem_eraseP_store {s : Session} (h : s.Tracks) (storeIdx : Nat) (x : HandOut) :
    x ∈ s.outstanding.eraseP (fun h => h.store = storeIdx) ↔ x ∈ s.outstanding ∧ x.store ≠ storeIdx := by
  have honce := h.once
  generalize s.outstanding = l at honce
  induction l with
  | nil => simp
  | cons y rest ih =>
    rw [List.map_cons, List.nodup_cons] at honce
    have hrest : x ∈ rest.eraseP (fun h => h.store = storeIdx) ↔ x ∈ rest ∧ x.store ≠ storeIdx := ih honce.2
    by_cases hy : y.store = storeIdx
    · rw [List.eraseP_cons_of_pos (by simpa using hy), List.mem_cons]
      constructor
      · intro hx
        exact ⟨.inr hx, fun hstore => honce.1 (hy ▸ hstore ▸ List.mem_map_of_mem hx)⟩
      · intro h
        obtain ⟨rfl | hx, hne⟩ := h
        · exact absurd hy hne
        · exact hx
    · rw [List.eraseP_cons_of_neg (by simpa using hy), List.mem_cons, List.mem_cons, hrest]
      constructor
      · intro h
        rcases h with rfl | ⟨hx, hne⟩
        · exact ⟨.inl rfl, hy⟩
        · exact ⟨.inr hx, hne⟩
      · intro h
        obtain ⟨rfl | hx, hne⟩ := h
        · exact .inl rfl
        · exact .inr ⟨hx, hne⟩

theorem tracks_finish {s : Session} (h : s.Tracks) (storeIdx : Nat) (rows : UInt64) :
    (s.finish storeIdx rows).Tracks where
  flags i := by
    show (s.manager.finishFlush storeIdx rows).flushingAt i = true ↔
      ∃ x ∈ s.outstanding.eraseP (fun h => h.store = storeIdx), x.store = i
    rw [s.manager.flushingAt_finishFlush, Bool.and_eq_true, h.flags i, decide_eq_true_eq]
    constructor
    · intro h'
      obtain ⟨⟨x, hx, rfl⟩, hne⟩ := h'
      exact ⟨x, (mem_eraseP_store h storeIdx x).mpr ⟨hx, hne⟩, rfl⟩
    · intro h'
      obtain ⟨x, hx, rfl⟩ := h'
      obtain ⟨hmem, hne⟩ := (mem_eraseP_store h storeIdx x).mp hx
      exact ⟨⟨x, hmem, rfl⟩, hne⟩
  once := h.once.sublist (List.eraseP_sublist.map _)

/-- What a call to hand out does. -/
theorem handOut_cases (s : Session) :
    (s.manager.currentStore.shouldFlush = false ∧ s.handOut = s) ∨
      (s.manager.currentStore.shouldFlush = true ∧
        s.handOut =
          { manager := s.manager.getStoreForFlush.1
            outstanding := s.outstanding ++ [⟨s.manager.activeStore, s.manager.currentStore.pendingRows⟩]
            fresh := Function.update s.fresh s.manager.activeStore [] }) := by
  unfold handOut DeltaStoreManager.getStoreForFlush
  cases h : s.manager.currentStore.shouldFlush with
  | false => exact .inl ⟨rfl, rfl⟩
  | true => exact .inr ⟨rfl, rfl⟩

theorem tracks_handOut {s : Session} (h : s.Tracks) (honce : s.HandsOutOnce .getStoreForFlush) :
    s.handOut.Tracks := by
  rcases s.handOut_cases with ⟨-, hsame⟩ | ⟨hshould, hout⟩
  · rw [hsame]
    exact h
  · obtain ⟨hidx, -, -, hflags⟩ := s.manager.getStoreForFlush_of_shouldFlush hshould
    rw [hout]
    constructor
    · intro i
      show s.manager.getStoreForFlush.1.flushingAt i = true ↔ _
      rw [hflags, Bool.or_eq_true, h.flags, decide_eq_true_eq]
      constructor
      · intro h'
        rcases h' with ⟨x, hx, rfl⟩ | rfl
        · exact ⟨x, List.mem_append_left _ hx, rfl⟩
        · exact ⟨_, List.mem_append_right _ (List.mem_singleton_self _), rfl⟩
      · intro h'
        obtain ⟨x, hx, rfl⟩ := h'
        rcases List.mem_append.mp hx with hx | hx
        · exact .inl ⟨x, hx, rfl⟩
        · exact .inr (by rw [List.mem_singleton.mp hx])
    · show ((s.outstanding ++ [_]).map HandOut.store).Nodup
      rw [List.map_append, List.map_singleton, List.nodup_append]
      refine ⟨h.once, List.nodup_singleton _, fun a ha b hb => ?_⟩
      obtain ⟨x, hx, rfl⟩ := List.mem_map.mp ha
      rw [List.mem_singleton.mp hb]
      exact honce _ hidx x hx

theorem tracks_step {s : Session} (h : s.Tracks) (call : ManagerCall) (honce : s.HandsOutOnce call) :
    (s.step call).Tracks := by
  cases call with
  | insert rowId columnData timestamp => exact tracks_write h _
  | delete rowId timestamp => exact tracks_write h _
  | getStoreForFlush => exact tracks_handOut h honce
  | finishFlush storeIdx rows => exact tracks_finish h storeIdx rows
  | compactStores =>
    exact ⟨fun i => (Bool.eq_iff_iff.mp (s.manager.flushingAt_compactStores i)).trans (h.flags i), h.once⟩

/-- The active store is not flushing, and the flags are right. -/
structure Separate (s : Session) : Prop where
  tracks : s.Tracks
  active : s.manager.flushingAt s.manager.activeStore = false

theorem Separate.exclusive {s : Session} (h : s.Separate) : s.Exclusive := by
  refine ⟨s.manager.flushing_currentStore.trans h.active, fun storeIdx hidx x hx hstore => ?_⟩
  have hactive : storeIdx = s.manager.activeStore := by
    unfold DeltaStoreManager.getStoreForFlush at hidx
    split at hidx
    · exact (Option.some.inj hidx).symm
    · cases hidx
  have hflag := (h.tracks.flags s.manager.activeStore).mpr ⟨x, hx, hstore.trans hactive⟩
  rw [h.active] at hflag
  cases hflag

theorem separate_step {s : Session} (h : s.Separate) (call : ManagerCall) (hfree : s.RotatesFree call) :
    (s.step call).Separate := by
  have honce : s.HandsOutOnce call := by
    cases call with
    | getStoreForFlush => exact h.exclusive.2
    | _ => trivial
  refine ⟨tracks_step h.tracks call honce, ?_⟩
  cases call with
  | insert rowId columnData timestamp => exact (s.manager.flushingAt_write _ _).trans h.active
  | delete rowId timestamp => exact (s.manager.flushingAt_write _ _).trans h.active
  | getStoreForFlush =>
    show s.handOut.manager.flushingAt s.handOut.manager.activeStore = false
    rcases s.handOut_cases with ⟨-, hsame⟩ | ⟨hshould, hout⟩
    · rw [hsame]
      exact h.active
    · obtain ⟨-, hactive, hne, hflags⟩ := s.manager.getStoreForFlush_of_shouldFlush hshould
      rw [hout]
      show s.manager.getStoreForFlush.1.flushingAt s.manager.getStoreForFlush.1.activeStore = false
      rw [hactive, hflags, hfree hshould, decide_eq_false hne]
      rfl
  | finishFlush storeIdx rows =>
    show (s.manager.finishFlush storeIdx rows).flushingAt s.manager.activeStore = false
    rw [s.manager.flushingAt_finishFlush, h.active]
    rfl
  | compactStores => exact (s.manager.flushingAt_compactStores _).trans h.active

/-- A hand-out that leaves the active store idle has not rotated onto a flushing one. -/
theorem rotatesFree_of_exclusive {s : Session} (call : ManagerCall) (h : (s.step call).Exclusive) :
    s.RotatesFree call := by
  cases call with
  | getStoreForFlush =>
    intro hshould
    obtain ⟨-, hactive, hne, hflags⟩ := s.manager.getStoreForFlush_of_shouldFlush hshould
    have hidle : s.handOut.manager.currentStore.flushing = false := h.1
    rcases s.handOut_cases with ⟨hnot, -⟩ | ⟨-, hout⟩
    · cases hnot.symm.trans hshould
    · rw [hout, DeltaStoreManager.flushing_currentStore, hactive, hflags, decide_eq_false hne,
        Bool.or_false] at hidle
      exact hidle
  | _ => trivial

/-- **In every state of a session the active store is idle and no store can be handed out
twice, exactly when no hand-out of the session makes a store active that is still being
flushed.** -/
theorem flush_exclusive_iff (numColumns : Nat) (flushThreshold : UInt64) (calls : List ManagerCall) :
    Throughout step Exclusive (new numColumns flushThreshold) calls ↔
      Along step RotatesFree (new numColumns flushThreshold) calls := by
  have hnew : (new numColumns flushThreshold).Separate := by
    refine ⟨tracks_new numColumns flushThreshold, ?_⟩
    rfl
  exact throughout_iff_along Separate (fun s h => h.exclusive) (fun s call h => separate_step h call)
    (fun s call _ => rotatesFree_of_exclusive call) hnew calls

/-- Two hand-outs before the first flush is finished: the first store is active again. -/
theorem two_hand_outs_not_exclusive : ¬ Throughout step Exclusive (new 1 1)
    [.insert 1 [[1]] 0, .getStoreForFlush, .insert 2 [[2]] 0, .getStoreForFlush] := by
  intro h
  obtain ⟨-, -, -, -, hexclusive⟩ := h
  cases hexclusive.1

end Session

end ColumnarStore.Delta
