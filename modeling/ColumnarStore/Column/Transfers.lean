import ColumnarStore.Column.Appends

/-! Rows that move between columns.

A program has some number of columns of one type, made without a capacity. It appends to
them, assigns to their rows, clones a column, filters one into another and copies a range
of one behind another. On lists of rows each call is a single operation (`onRows`); in the
columns it goes over values, null bytes and sizes, and a filter may read the very column it
appends to. Every run that stays within the rows leaves the columns with the rows of the
lists (`transfers_hold`). -/
namespace ColumnarStore
open Foundation
variable {t : DataType}

/-! ### Calls -/

namespace ColumnVector

/-- An assignment through `operator[]`. -/
def assign (v : ColumnVector t) (i : Nat) (value : Native t) : Outcome (ColumnVector t) :=
  if i < v.data.length then .ok {v with data := v.data.set i value} else .error .outOfBounds

def setNull (v : ColumnVector t) (i : Nat) (null : Bool := true) : Outcome (ColumnVector t) :=
  if i < v.nulls.length then .ok {v with nulls := v.nulls.set i (if null then 1 else 0)} else .error .outOfBounds

/-- The arrays behind `Data() + offset` and `Nulls() + offset`. -/
def range (v : ColumnVector t) (offset count : Nat)
    (h : offset + count ≤ v.data.length ∧ offset + count ≤ v.nulls.length) : BulkAppend t where
  values := (v.data.drop offset).take count
  nulls := some ((v.nulls.drop offset).take count)
  flagged := by
    simp
    omega

/-- The bulk append of `count` rows of another vector. -/
def appendFrom (v src : ColumnVector t) (offset count : Nat) : Outcome (ColumnVector t) :=
  if h : offset + count ≤ src.data.length ∧ offset + count ≤ src.nulls.length then
    .ok (v.appendBatch (src.range offset count h))
  else .error .outOfBounds

end ColumnVector

/-- A call on the columns of a program, which are numbered in the order they were made. -/
inductive ColumnCall (t : DataType) where
  | append (column : Nat) (call : AppendCall t)
  | assign (column i : Nat) (value : Native t)
  | setNull (column i : Nat) (null : Bool)
  | clone (column : Nat)
  | filter (column : Nat) (mask : List Bool) (n out : Nat)
  | copyTo (column dest offset count : Nat)

def columnAt (columns : List (ColumnVector t)) (column : Nat) : Outcome (ColumnVector t) :=
  orFault .nullPointer columns[column]?

/-- A round of the loop of `Filter`, which finds the columns as the rounds before left them. -/
def filterRow (column : Nat) (mask : List Bool) (out : Nat) (columns : List (ColumnVector t)) (i : Nat) :
    Outcome (List (ColumnVector t)) := do
  if ← orFault .outOfBounds mask[i]? then
    let v ← columnAt columns column
    let value ← v.get i
    let null ← v.isNull i
    let outCol ← columnAt columns out
    return columns.set out (outCol.append value null)
  else return columns

namespace ColumnCall

def apply (columns : List (ColumnVector t)) : ColumnCall t → Outcome (List (ColumnVector t))
  | append column call => do
    let v ← columnAt columns column
    return columns.set column (call.apply v)
  | assign column i value => do
    let v ← columnAt columns column
    return columns.set column (← v.assign i value)
  | setNull column i null => do
    let v ← columnAt columns column
    return columns.set column (← v.setNull i null)
  | clone column => do
    let v ← columnAt columns column
    return columns ++ [v]
  | filter column mask n out => (List.range n).foldlM (filterRow column mask out) columns
  | copyTo column dest offset count => do
    let v ← columnAt columns column
    let d ← columnAt columns dest
    -- A vector must not insert a range of itself: growing it frees what the pointers read.
    if column = dest then .error .outOfBounds else return columns.set dest (← d.appendFrom v offset count)

end ColumnCall

/-! ### The same calls on lists of rows -/

/-- The first `n` rows, as far as the mask selects them. -/
def selectedRows (mask : List Bool) (n : Nat) (rows : List (Native t × Bool)) : List (Native t × Bool) :=
  (((rows.zip mask).take n).filter (·.2)).map (·.1)

/-- What a call makes of the rows of each column, if it stays within them. -/
def ColumnCall.onRows (tables : List (List (Native t × Bool))) :
    ColumnCall t → Option (List (List (Native t × Bool)))
  | append column call => do
    let rows ← tables[column]?
    return tables.set column (rows ++ call.rows)
  | assign column i value => do
    let rows ← tables[column]?
    let row ← rows[i]?
    return tables.set column (rows.set i (value, row.2))
  | setNull column i null => do
    let rows ← tables[column]?
    let row ← rows[i]?
    return tables.set column (rows.set i (row.1, null))
  | clone column => do
    let rows ← tables[column]?
    return tables ++ [rows]
  | filter column mask n out => do
    let rows ← tables[column]?
    let kept ← tables[out]?
    if n ≤ rows.length ∧ n ≤ mask.length then some (tables.set out (kept ++ selectedRows mask n rows)) else none
  | copyTo column dest offset count => do
    let rows ← tables[column]?
    let kept ← tables[dest]?
    if column ≠ dest ∧ offset + count ≤ rows.length then
      some (tables.set dest (kept ++ (rows.drop offset).take count))
    else none

/-! ### Lists that follow each other -/

section Lists
variable {α β : Type} {R : α → β → Prop} {as : List α} {bs : List β}

theorem forall₂_set (h : List.Forall₂ R as bs) {a : α} {b : β} (hab : R a b) (i : Nat) :
    List.Forall₂ R (as.set i a) (bs.set i b) := by
  induction h generalizing i with
  | nil => exact .nil
  | cons hfirst hrest ih =>
    cases i with
    | zero => exact .cons hab hrest
    | succ i => exact .cons hfirst (ih i)

theorem exists_of_forall₂ (h : List.Forall₂ R as bs) {i : Nat} {b : β} (hb : bs[i]? = some b) :
    ∃ a, as[i]? = some a ∧ R a b := by
  induction h generalizing i with
  | nil => cases hb
  | cons hfirst hrest ih =>
    cases i with
    | zero =>
      cases hb
      exact ⟨_, rfl, hfirst⟩
    | succ i => exact ih hb

theorem zip_set_left {pair : α × β} {i : Nat} (h : (as.zip bs)[i]? = some pair) (a : α) :
    (as.set i a).zip bs = (as.zip bs).set i (a, pair.2) := by
  induction as generalizing bs i with
  | nil => cases h
  | cons first rest ih =>
    cases bs with
    | nil => cases h
    | cons b bs =>
      cases i with
      | zero =>
        cases h
        rfl
      | succ i => exact congrArg (_ :: ·) (ih h)

theorem zip_set_right {pair : α × β} {i : Nat} (h : (as.zip bs)[i]? = some pair) (b : β) :
    as.zip (bs.set i b) = (as.zip bs).set i (pair.1, b) := by
  induction as generalizing bs i with
  | nil => cases h
  | cons first rest ih =>
    cases bs with
    | nil => cases h
    | cons second bs =>
      cases i with
      | zero =>
        cases h
        rfl
      | succ i => exact congrArg (_ :: ·) (ih h)

end Lists

/-! ### One column -/

namespace ColumnVector
variable {v src : ColumnVector t} {rows : List (Native t × Bool)}

/-- Without a capacity the arrays are the rows. -/
theorem Follows.stored_eq (h : Follows 0 v rows) : v.stored = rows := h.stored

theorem Follows.length_data (h : Follows 0 v rows) : v.data.length = rows.length := by
  rw [← h.stored_eq, ColumnVector.stored, List.length_zip, List.length_map, ← h.paired, Nat.min_self]

theorem Follows.holds (h : Follows 0 v rows) : v.Holds rows := by
  rw [holds_iff_take h.paired h.size, h.stored_eq, List.take_length]

theorem Follows.append (h : Follows 0 v rows) (value : Native t) (null : Bool) :
    Follows 0 (v.append value null) (rows ++ [(value, null)]) := by
  have hrow := h.appended [value] [if null then 1 else 0] rfl
  cases null <;> exact hrow

theorem Follows.assign (h : Follows 0 v rows) {i : Nat} {row : Native t × Bool} (hrow : rows[i]? = some row)
    (value : Native t) : ∃ v', v.assign i value = .ok v' ∧ Follows 0 v' (rows.set i (value, row.2)) := by
  have hi : i < v.data.length := by
    rw [h.length_data]
    exact (List.getElem?_eq_some_iff.mp hrow).1
  refine ⟨_, if_pos hi, ?_, ?_, ?_⟩
  · rw [List.length_set, h.paired]
  · rw [List.length_set, h.size]
  · show (v.data.set i value).zip (v.nulls.map (· != 0)) = rows.set i (value, row.2)
    rw [← h.stored_eq] at hrow ⊢
    exact zip_set_left hrow value

theorem Follows.setNull (h : Follows 0 v rows) {i : Nat} {row : Native t × Bool} (hrow : rows[i]? = some row)
    (null : Bool) : ∃ v', v.setNull i null = .ok v' ∧ Follows 0 v' (rows.set i (row.1, null)) := by
  have hi : i < v.nulls.length := by
    rw [← h.paired, h.length_data]
    exact (List.getElem?_eq_some_iff.mp hrow).1
  refine ⟨_, if_pos hi, ?_, ?_, ?_⟩
  · rw [List.length_set, h.paired]
  · rw [List.length_set, h.size]
  · show v.data.zip ((v.nulls.set i (if null then 1 else 0)).map (· != 0)) = rows.set i (row.1, null)
    have hflag : ((if null then 1 else 0 : UInt8) != 0) = null := by cases null <;> rfl
    rw [List.map_set, hflag]
    rw [← h.stored_eq] at hrow ⊢
    exact zip_set_right hrow null

theorem range_rows (h : Follows 0 v rows) {offset count : Nat}
    (hin : offset + count ≤ v.data.length ∧ offset + count ≤ v.nulls.length) :
    (AppendCall.appendBatch (v.range offset count hin)).rows = (rows.drop offset).take count := by
  show ((v.data.drop offset).take count).zip (((v.nulls.drop offset).take count).map (· != 0)) = _
  rw [← h.stored_eq, ColumnVector.stored, List.map_take, List.map_drop, List.zip_eq_zipWith,
    List.zip_eq_zipWith, List.drop_zipWith, List.take_zipWith]

theorem Follows.appendFrom (h : Follows 0 v rows) {others : List (Native t × Bool)} (hsrc : Follows 0 src others)
    {offset count : Nat} (hin : offset + count ≤ others.length) :
    ∃ v', v.appendFrom src offset count = .ok v' ∧ Follows 0 v' (rows ++ (others.drop offset).take count) := by
  have hdata : offset + count ≤ src.data.length := by rwa [hsrc.length_data]
  have hboth : offset + count ≤ src.data.length ∧ offset + count ≤ src.nulls.length :=
    ⟨hdata, hsrc.paired ▸ hdata⟩
  have happlied := h.apply (.appendBatch (src.range offset count hboth))
  rw [range_rows hsrc hboth] at happlied
  exact ⟨_, dif_pos hboth, happlied⟩

end ColumnVector

/-! ### One call -/

section Calls
variable {columns : List (ColumnVector t)} {tables tables' : List (List (Native t × Bool))}

theorem exists_column (h : List.Forall₂ (ColumnVector.Follows 0) columns tables) {column : Nat}
    {rows : List (Native t × Bool)} (hrows : tables[column]? = some rows) :
    ∃ v, columnAt columns column = .ok v ∧ v.Follows 0 rows := by
  obtain ⟨v, hv, hfollows⟩ := exists_of_forall₂ h hrows
  exact ⟨v, orFault_eq_ok.mpr hv, hfollows⟩

theorem selectedRows_succ {mask : List Bool} {n : Nat} {rows : List (Native t × Bool)} {keep : Bool}
    {row : Native t × Bool} (hkeep : mask[n]? = some keep) (hrow : rows[n]? = some row) :
    selectedRows mask (n + 1) rows = selectedRows mask n rows ++ if keep then [row] else [] := by
  have hpair : (rows.zip mask)[n]? = some (row, keep) := List.getElem?_zip_eq_some.mpr ⟨hrow, hkeep⟩
  rw [selectedRows, selectedRows, List.take_add_one, hpair, List.filter_append, List.map_append]
  cases keep <;> rfl

/-- The loop of `Filter` appends the selected rows, also to the column it reads. -/
theorem filter_follows (h : List.Forall₂ (ColumnVector.Follows 0) columns tables) {column out n : Nat}
    {mask : List Bool} {rows kept : List (Native t × Bool)} (hrows : tables[column]? = some rows)
    (hkept : tables[out]? = some kept) (hn : n ≤ rows.length) (hmask : n ≤ mask.length) :
    ∃ columns', (List.range n).foldlM (filterRow column mask out) columns = .ok columns' ∧
      List.Forall₂ (ColumnVector.Follows 0) columns' (tables.set out (kept ++ selectedRows mask n rows)) := by
  have hout : out < tables.length := (List.getElem?_eq_some_iff.mp hkept).1
  -- Whatever was appended, the column that is read begins with its rows.
  have hread : ∀ more, ∃ rest, (tables.set out (kept ++ more))[column]? = some (rows ++ rest) := by
    intro more
    rcases eq_or_ne out column with rfl | hne
    · rw [hrows] at hkept
      cases hkept
      exact ⟨more, List.getElem?_set_self hout⟩
    · exact ⟨[], by rw [List.getElem?_set_ne hne, hrows, List.append_nil]⟩
  refine foldlM_range_invariant _ (fun i columns => List.Forall₂ (ColumnVector.Follows 0) columns
    (tables.set out (kept ++ selectedRows mask i rows))) n columns ?_ fun i columns hi hcolumns => ?_
  · have hsame : tables.set out kept = tables := by
      obtain ⟨_, rfl⟩ := List.getElem?_eq_some_iff.mp hkept
      exact List.set_getElem_self hout
    rwa [show selectedRows mask 0 rows = [] from rfl, List.append_nil, hsame]
  · have hkeep : mask[i]? = some mask[i] := List.getElem?_eq_getElem (hi.trans_le hmask)
    have hrow : rows[i]? = some rows[i] := List.getElem?_eq_getElem (hi.trans_le hn)
    rw [selectedRows_succ hkeep hrow, filterRow, hkeep, orFault_some, bind_ok]
    cases mask[i] with
    | false => exact ⟨columns, rfl, by simpa using hcolumns⟩
    | true =>
      obtain ⟨rest, hrest⟩ := hread (selectedRows mask i rows)
      obtain ⟨v, hv, hfollows⟩ := exists_column hcolumns hrest
      obtain ⟨outCol, houtCol, hout'⟩ := exists_column hcolumns (List.getElem?_set_self hout)
      have hstored : v.stored[i]? = some rows[i] := by
        rw [hfollows.stored_eq, List.getElem?_append_left (hi.trans_le hn), hrow]
      obtain ⟨hvalue, hnull⟩ := ColumnVector.stored_getElem? hstored
      refine ⟨columns.set out (outCol.append rows[i].1 rows[i].2), ?_, ?_⟩
      · simp only [if_true, hv, hvalue, hnull, houtCol, bind_ok, pure_eq_ok]
      · have hset := forall₂_set hcolumns (hout'.append rows[i].1 rows[i].2) out
        rwa [List.set_set, List.append_assoc] at hset

/-- A call that stays within the rows does to the columns what it does to the lists. -/
theorem ColumnCall.apply_follows (h : List.Forall₂ (ColumnVector.Follows 0) columns tables) (call : ColumnCall t)
    (hcall : call.onRows tables = some tables') :
    ∃ columns', call.apply columns = .ok columns' ∧ List.Forall₂ (ColumnVector.Follows 0) columns' tables' := by
  cases call with
  | append column call =>
    obtain ⟨rows, hrows, hset⟩ := Option.bind_eq_some_iff.mp hcall
    cases hset
    obtain ⟨v, hv, hfollows⟩ := exists_column h hrows
    exact ⟨_, by rw [apply, hv, bind_ok, pure_eq_ok], forall₂_set h (hfollows.apply call) column⟩
  | assign column i value =>
    obtain ⟨rows, hrows, hset⟩ := Option.bind_eq_some_iff.mp hcall
    obtain ⟨row, hrow, hset⟩ := Option.bind_eq_some_iff.mp hset
    cases hset
    obtain ⟨v, hv, hfollows⟩ := exists_column h hrows
    obtain ⟨v', hassign, hfollows'⟩ := hfollows.assign hrow value
    exact ⟨_, by rw [apply, hv, bind_ok, hassign, bind_ok, pure_eq_ok], forall₂_set h hfollows' column⟩
  | setNull column i null =>
    obtain ⟨rows, hrows, hset⟩ := Option.bind_eq_some_iff.mp hcall
    obtain ⟨row, hrow, hset⟩ := Option.bind_eq_some_iff.mp hset
    cases hset
    obtain ⟨v, hv, hfollows⟩ := exists_column h hrows
    obtain ⟨v', hnull, hfollows'⟩ := hfollows.setNull hrow null
    exact ⟨_, by rw [apply, hv, bind_ok, hnull, bind_ok, pure_eq_ok], forall₂_set h hfollows' column⟩
  | clone column =>
    obtain ⟨rows, hrows, hset⟩ := Option.bind_eq_some_iff.mp hcall
    cases hset
    obtain ⟨v, hv, hfollows⟩ := exists_column h hrows
    exact ⟨_, by rw [apply, hv, bind_ok, pure_eq_ok], List.rel_append h (.cons hfollows .nil)⟩
  | filter column mask n out =>
    obtain ⟨rows, hrows, hset⟩ := Option.bind_eq_some_iff.mp hcall
    obtain ⟨kept, hkept, hset⟩ := Option.bind_eq_some_iff.mp hset
    obtain ⟨⟨hn, hmask⟩, htables⟩ := Option.ite_none_right_eq_some.mp hset
    cases htables
    exact filter_follows h hrows hkept hn hmask
  | copyTo column dest offset count =>
    obtain ⟨rows, hrows, hset⟩ := Option.bind_eq_some_iff.mp hcall
    obtain ⟨kept, hkept, hset⟩ := Option.bind_eq_some_iff.mp hset
    obtain ⟨⟨hne, hin⟩, htables⟩ := Option.ite_none_right_eq_some.mp hset
    cases htables
    obtain ⟨v, hv, hfollows⟩ := exists_column h hrows
    obtain ⟨d, hd, hdest⟩ := exists_column h hkept
    obtain ⟨d', happend, hfollows'⟩ := hdest.appendFrom hfollows hin
    refine ⟨_, ?_, forall₂_set h hfollows' dest⟩
    rw [apply, hv, bind_ok, hd, bind_ok, if_neg hne, happend, bind_ok, pure_eq_ok]

/-! ### Every run -/

theorem new_follows (hnew : ∀ v ∈ columns, v = .ofCapacity t 0) :
    List.Forall₂ (ColumnVector.Follows 0) columns (List.replicate columns.length []) := by
  induction columns with
  | nil => exact .nil
  | cons v rest ih =>
    obtain ⟨rfl, hrest⟩ := List.forall_mem_cons.mp hnew
    exact .cons (ColumnVector.follows_ofCapacity t 0) (ih hrest)

theorem run_follows (h : List.Forall₂ (ColumnVector.Follows 0) columns tables) {calls : List (ColumnCall t)}
    (hcalls : calls.foldlM ColumnCall.onRows tables = some tables') :
    ∃ columns', calls.foldlM ColumnCall.apply columns = .ok columns' ∧
      List.Forall₂ (ColumnVector.Follows 0) columns' tables' := by
  induction calls generalizing columns tables with
  | nil =>
    cases hcalls
    exact ⟨columns, rfl, h⟩
  | cons call rest ih =>
    rw [List.foldlM_cons] at hcalls
    obtain ⟨first, hfirst, hrest⟩ := Option.bind_eq_some_iff.mp hcalls
    obtain ⟨columns', hstep, hfollows⟩ := call.apply_follows h hfirst
    obtain ⟨columns'', hrun, hend⟩ := ih hfollows hrest
    exact ⟨columns'', by rw [List.foldlM_cons, hstep, bind_ok, hrun], hend⟩

/-- **Columns made without a capacity hold, after any run of calls within their rows, the rows
that the same calls leave in lists.** -/
theorem transfers_hold (hnew : ∀ v ∈ columns, v = .ofCapacity t 0) {calls : List (ColumnCall t)}
    (hcalls : calls.foldlM ColumnCall.onRows (List.replicate columns.length []) = some tables) :
    ∃ columns', calls.foldlM ColumnCall.apply columns = .ok columns' ∧
      List.Forall₂ ColumnVector.Holds columns' tables := by
  obtain ⟨columns', hrun, hfollows⟩ := run_follows (new_follows hnew) hcalls
  exact ⟨columns', hrun, hfollows.imp fun _ _ h => h.holds⟩

end Calls

/-- A column filtered into another and into itself, cloned and copied. -/
def sampleTransfers : List (ColumnCall .int32) :=
  [.append 0 (.append 7), .append 0 .appendNull, .append 0 (.append 9), .setNull 0 2 true, .assign 0 1 5,
    .filter 0 [true, false, true] 3 1, .filter 0 [false, true, true] 3 0, .clone 1, .copyTo 0 2 1 3]

theorem sampleTransfers_held :
    ∃ columns', sampleTransfers.foldlM ColumnCall.apply [.ofCapacity .int32 0, .ofCapacity .int32 0] = .ok columns' ∧
      List.Forall₂ ColumnVector.Holds columns'
        [[(7, false), (5, true), (9, true), (5, true), (9, true)], [(7, false), (9, true)],
          [(7, false), (9, true), (5, true), (9, true), (5, true)]] :=
  transfers_hold (by simp) rfl

end ColumnarStore
