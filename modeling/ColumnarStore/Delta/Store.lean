import Mathlib

/-! The delta store: the in-memory rows not yet merged into a segment.

Every column keeps two ordered maps, `inserts` from a row id to the timestamp and
bytes of its last insert and `deletes` from a row id to the timestamp of its last
delete. A write without a timestamp draws the next one from the store's counter.
Nothing is removed by a delete: readers compare the two timestamps. -/
namespace ColumnarStore.Delta

abbrev RowId := UInt64
abbrev Timestamp := UInt64
abbrev Bytes := List UInt8

/-! ### One column -/

structure ColumnDelta where
  inserts : Std.TreeMap RowId (Timestamp × Bytes) := ∅
  deletes : Std.TreeMap RowId Timestamp := ∅

namespace ColumnDelta

def memoryUsage (d : ColumnDelta) : Nat :=
  (d.inserts.toList.map fun e => e.2.2.length + 16).sum + d.deletes.size * 16

def insert (d : ColumnDelta) (rowId : RowId) (timestamp : Timestamp) (data : Bytes) : ColumnDelta :=
  {d with inserts := d.inserts.insert rowId (timestamp, data)}

def delete (d : ColumnDelta) (rowId : RowId) (timestamp : Timestamp) : ColumnDelta :=
  {d with deletes := d.deletes.insert rowId timestamp}

/-- The test `GetRange` makes on an entry of `inserts`: no delete, or an older one. -/
def live (d : ColumnDelta) (rowId : RowId) (timestamp : Timestamp) : Bool :=
  match d.deletes[rowId]? with
  | none => true
  | some deleted => deleted < timestamp

end ColumnDelta

/-! ### The store -/

/-- `columns_` is sized by the constructor and never again, so `num_columns_` is its length. -/
structure DeltaStore where
  columns : List ColumnDelta
  flushThreshold : UInt64
  pendingRows : UInt64 := 0
  globalTimestamp : Timestamp := 0
  flushing : Bool := false

namespace DeltaStore

def new (numColumns : Nat) (flushThreshold : UInt64 := 100000) : DeltaStore :=
  {columns := List.replicate numColumns {}, flushThreshold}

def numColumns (s : DeltaStore) : Nat := s.columns.length

/-- The timestamp a write runs under: its own, or the counter's next value for 0. -/
def stamp (s : DeltaStore) (timestamp : Timestamp) : Timestamp :=
  if timestamp = 0 then s.globalTimestamp + 1 else timestamp

/-- The counter after drawing that timestamp. -/
def clock (s : DeltaStore) (timestamp : Timestamp) : Timestamp :=
  if timestamp = 0 then s.globalTimestamp + 1 else s.globalTimestamp

/-- Columns past the end of `columnData` are left as they are; the row is counted
as pending all the same. -/
def insert (s : DeltaStore) (rowId : RowId) (columnData : List Bytes)
    (timestamp : Timestamp := 0) : DeltaStore :=
  {s with
    columns := s.columns.mapIdx fun col d =>
      match columnData[col]? with
      | some data => d.insert rowId (s.stamp timestamp) data
      | none => d
    globalTimestamp := s.clock timestamp
    pendingRows := s.pendingRows + 1}

def delete (s : DeltaStore) (rowId : RowId) (timestamp : Timestamp := 0) : DeltaStore :=
  {s with
    columns := s.columns.map fun d => d.delete rowId (s.stamp timestamp)
    globalTimestamp := s.clock timestamp}

/-- Any delete hides the row, whatever its timestamp. -/
def get (s : DeltaStore) (col : Nat) (rowId : RowId) : Option (Bytes × Timestamp) :=
  match s.columns[col]? with
  | none => none
  | some d => if rowId ∈ d.deletes then none else d.inserts[rowId]?.map fun e => (e.2, e.1)

/-- The loop starts at `lower_bound(startRow)` and stops at the first key not below `endRow`. -/
def getRange (s : DeltaStore) (col : Nat) (startRow endRow : RowId) (out : List (RowId × Bytes)) :
    List (RowId × Bytes) :=
  match s.columns[col]? with
  | none => out
  | some d =>
    let range := (d.inserts.toList.dropWhile fun e => e.1 < startRow).takeWhile fun e => e.1 < endRow
    out ++ range.filterMap fun e => if d.live e.1 e.2.1 then some (e.1, e.2.2) else none

def shouldFlush (s : DeltaStore) : Bool := s.flushThreshold ≤ s.pendingRows

def memoryUsage (s : DeltaStore) : Nat := (s.columns.map ColumnDelta.memoryUsage).sum

def beginFlush (s : DeltaStore) : DeltaStore := {s with flushing := true}

def endFlush (s : DeltaStore) (flushedRows : UInt64) : DeltaStore :=
  {s with pendingRows := s.pendingRows - flushedRows, flushing := false}

/-- The counter is not reset: timestamps stay ahead of every earlier write. -/
def clear (s : DeltaStore) : DeltaStore :=
  {s with columns := s.columns.map fun _ => {}, pendingRows := 0}

/-- What `VisitInserts` hands to its visitor, in order; deletes are not consulted. -/
def visitInserts (s : DeltaStore) (col : Nat) : List (RowId × Timestamp × Bytes) :=
  match s.columns[col]? with
  | none => []
  | some d => d.inserts.toList

def visitDeletes (s : DeltaStore) (col : Nat) : List (RowId × Timestamp) :=
  match s.columns[col]? with
  | none => []
  | some d => d.deletes.toList

end DeltaStore

/-! ### Histories -/

/-- A call that changes the rows a store holds. -/
inductive Write where
  | insert (rowId : RowId) (columnData : List Bytes) (timestamp : Timestamp)
  | delete (rowId : RowId) (timestamp : Timestamp)
  | clear

namespace Write

def apply (s : DeltaStore) : Write → DeltaStore
  | insert rowId columnData timestamp => s.insert rowId columnData timestamp
  | delete rowId timestamp => s.delete rowId timestamp
  | clear => s.clear

/-- The call leaves its timestamp to the store. -/
def Automatic : Write → Prop
  | insert _ _ timestamp => timestamp = 0
  | delete _ timestamp => timestamp = 0
  | clear => True

instance : DecidablePred Automatic
  | insert _ _ timestamp => inferInstanceAs (Decidable (timestamp = 0))
  | delete _ timestamp => inferInstanceAs (Decidable (timestamp = 0))
  | clear => inferInstanceAs (Decidable True)

end Write

def DeltaStore.run (s : DeltaStore) (writes : List Write) : DeltaStore := writes.foldl Write.apply s

theorem DeltaStore.run_append (s : DeltaStore) (a b : List Write) :
    s.run (a ++ b) = (s.run a).run b := List.foldl_append ..

end ColumnarStore.Delta
