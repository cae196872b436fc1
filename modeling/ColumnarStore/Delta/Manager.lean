import ColumnarStore.Delta.Store
import ColumnarStore.Foundation.Runs

/-! The delta store manager.

Writes go to the active one of at most two stores. A store that has enough pending rows
is handed out to be flushed while the next one takes the writes; a finished flush takes
the flushed rows off the store's counter; compaction empties the stores that are not
flushing and have nothing pending. A session is a manager with a record of its
hand-outs and of the writes that came after them. -/
namespace ColumnarStore.Delta
open Foundation

/-! ### The manager -/

structure DeltaStoreManager where
  stores : List DeltaStore
  numColumns : Nat
  flushThreshold : UInt64
  activeStore : Nat
  active_lt : activeStore < stores.length

namespace DeltaStoreManager

def new (numColumns : Nat) (flushThreshold : UInt64 := 100000) : DeltaStoreManager where
  stores := [.new numColumns flushThreshold]
  numColumns := numColumns
  flushThreshold := flushThreshold
  activeStore := 0
  active_lt := Nat.zero_lt_one

def currentStore (m : DeltaStoreManager) : DeltaStore := m.stores.get ⟨m.activeStore, m.active_lt⟩

/-- A write to the store that `CurrentStore` returns. -/
def write (m : DeltaStoreManager) (w : Write) : DeltaStoreManager :=
  {m with
    stores := m.stores.modify m.activeStore (Write.apply · w)
    active_lt := by simpa using m.active_lt}

/-- The stores with a second one behind an only one. -/
def withSpare (m : DeltaStoreManager) : List DeltaStore :=
  if m.stores.length = 1 then m.stores ++ [.new m.numColumns m.flushThreshold] else m.stores

/-- The store that becomes active when the active one is handed out. -/
def nextActive (m : DeltaStoreManager) : Nat := (m.activeStore + 1) % m.withSpare.length

theorem two_le_withSpare (m : DeltaStoreManager) : 2 ≤ m.withSpare.length := by
  have hlt := m.active_lt
  unfold withSpare
  split
  · simp only [List.length_append, List.length_singleton]
    omega
  · omega

/-- The index of the store handed out, if the active one has enough pending rows. -/
def getStoreForFlush (m : DeltaStoreManager) : DeltaStoreManager × Option Nat :=
  if m.currentStore.shouldFlush then
    ({m with
        stores := m.withSpare.modify m.activeStore DeltaStore.beginFlush
        activeStore := m.nextActive
        active_lt := by
          have hspare := m.two_le_withSpare
          rw [List.length_modify]
          exact Nat.mod_lt _ (by omega)},
      some m.activeStore)
  else (m, none)

def finishFlush (m : DeltaStoreManager) (storeIdx : Nat) (flushedRows : UInt64) : DeltaStoreManager :=
  {m with
    stores := m.stores.modify storeIdx fun s => s.endFlush flushedRows
    active_lt := by simpa using m.active_lt}

def compactStores (m : DeltaStoreManager) : DeltaStoreManager :=
  {m with
    stores := m.stores.map fun s => if !s.flushing && s.pendingRows = 0 then s.clear else s
    active_lt := by simpa using m.active_lt}

end DeltaStoreManager

inductive ManagerCall where
  | insert (rowId : RowId) (columnData : List Bytes) (timestamp : Timestamp)
  | delete (rowId : RowId) (timestamp : Timestamp)
  | getStoreForFlush
  | finishFlush (storeIdx : Nat) (flushedRows : UInt64)
  | compactStores

/-! ### Sessions -/

/-- A write with the timestamp it runs under in a store. -/
def DeltaStore.stamped (s : DeltaStore) : Write → Write
  | .insert rowId columnData timestamp => .insert rowId columnData (s.stamp timestamp)
  | .delete rowId timestamp => .delete rowId (s.stamp timestamp)
  | .clear => .clear

/-- A store handed out, with the rows it had pending then. -/
structure HandOut where
  store : Nat
  rows : UInt64
  deriving DecidableEq, Repr

structure Session where
  manager : DeltaStoreManager
  /-- The hand-outs that are not finished, in order. -/
  outstanding : List HandOut := []
  /-- For every store the writes it took since it was last handed out, in order and under
  the timestamps they ran with. -/
  fresh : Nat → List Write := fun _ => []

namespace Session

def new (numColumns : Nat) (flushThreshold : UInt64 := 100000) : Session where
  manager := .new numColumns flushThreshold

def write (s : Session) (w : Write) : Session :=
  {s with
    manager := s.manager.write w
    fresh := Function.update s.fresh s.manager.activeStore
      (s.fresh s.manager.activeStore ++ [s.manager.currentStore.stamped w])}

def handOut (s : Session) : Session :=
  match s.manager.getStoreForFlush with
  | (_, none) => s
  | (manager, some storeIdx) =>
    { manager
      outstanding := s.outstanding ++ [⟨storeIdx, s.manager.currentStore.pendingRows⟩]
      fresh := Function.update s.fresh storeIdx [] }

/-- A flush finishes the oldest hand-out of its store. -/
def finish (s : Session) (storeIdx : Nat) (flushedRows : UInt64) : Session :=
  {s with
    manager := s.manager.finishFlush storeIdx flushedRows
    outstanding := s.outstanding.eraseP fun h => h.store = storeIdx}

def step (s : Session) : ManagerCall → Session
  | .insert rowId columnData timestamp => s.write (.insert rowId columnData timestamp)
  | .delete rowId timestamp => s.write (.delete rowId timestamp)
  | .getStoreForFlush => s.handOut
  | .finishFlush storeIdx flushedRows => s.finish storeIdx flushedRows
  | .compactStores => {s with manager := s.manager.compactStores}

end Session

end ColumnarStore.Delta
