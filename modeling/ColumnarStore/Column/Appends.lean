import ColumnarStore.Column

/-! Appending to a column.

A column is made with a capacity and appended to, a value, a batch or a null at a time.
The constructor does not set the capacity aside: it fills both arrays with that many rows
and leaves the size at zero. Every append then goes behind those rows, while the size and
all reads count from the front (`holds_appended_iff`). -/
namespace ColumnarStore
open Foundation
variable {t : DataType}

/-! ### Appends -/

/-- The arrays of a bulk append, with a null byte for each value or without null bytes. -/
structure BulkAppend (t : DataType) where
  values : List (Native t)
  nulls : Option (List UInt8) := none
  flagged : ∀ bytes ∈ nulls, bytes.length = values.length

/-- The null bytes that are stored. -/
def BulkAppend.nullBytes (b : BulkAppend t) : List UInt8 := b.nulls.getD (List.replicate b.values.length 0)

namespace ColumnVector

def append (v : ColumnVector t) (value : Native t) (isNull : Bool := false) : ColumnVector t :=
  {data := v.data ++ [value], nulls := v.nulls ++ [if isNull then 1 else 0], size := v.size + 1}

def appendBatch (v : ColumnVector t) (b : BulkAppend t) : ColumnVector t :=
  {data := v.data ++ b.values, nulls := v.nulls ++ b.nullBytes, size := v.size + b.values.length}

def appendNulls (v : ColumnVector t) (count : Nat) : ColumnVector t :=
  { data := v.data ++ List.replicate count 0
    nulls := v.nulls ++ List.replicate count 1
    size := v.size + count }

/-- `operator[]`. -/
def get (v : ColumnVector t) (i : Nat) : Outcome (Native t) := orFault .outOfBounds v.data[i]?

def isNull (v : ColumnVector t) (i : Nat) : Outcome Bool := do
  let byte ← orFault .outOfBounds v.nulls[i]?
  return byte != 0

/-- `NullCount` of the column around the vector. -/
def nullCount (v : ColumnVector t) : Outcome Nat :=
  (List.range v.size).foldlM (fun cnt i => do return if ← v.isNull i then cnt + 1 else cnt) 0

end ColumnVector

/-- A call that appends to a `TypedColumn`. -/
inductive AppendCall (t : DataType) where
  | append (value : Native t)
  | appendBatch (b : BulkAppend t)
  | appendNull

namespace AppendCall

def apply (v : ColumnVector t) : AppendCall t → ColumnVector t
  | append value => v.append value
  | appendBatch b => v.appendBatch b
  | appendNull => v.appendNulls 1

/-- What a call appends: values with their null flags. -/
def rows : AppendCall t → List (Native t × Bool)
  | append value => [(value, false)]
  | appendBatch b => b.values.zip (b.nullBytes.map (· != 0))
  | appendNull => [(0, true)]

end AppendCall

def ColumnVector.run (v : ColumnVector t) (calls : List (AppendCall t)) : ColumnVector t :=
  calls.foldl AppendCall.apply v

def appendedRows (calls : List (AppendCall t)) : List (Native t × Bool) := calls.flatMap AppendCall.rows

/-- The column has as many rows as were appended, and reads as those rows. -/
structure ColumnVector.Holds (v : ColumnVector t) (rows : List (Native t × Bool)) : Prop where
  size : v.size = rows.length
  get : ∀ (i : Nat) (row : Native t × Bool), rows[i]? = some row → v.get i = .ok row.1
  isNull : ∀ (i : Nat) (row : Native t × Bool), rows[i]? = some row → v.isNull i = .ok row.2
  nullCount : v.nullCount = .ok (rows.countP (·.2))
  readValues : ∀ offset count, offset + count ≤ rows.length →
    Column.readValues ⟨t, v⟩ offset count = .ok (storeWords t.typeSize (((rows.map (·.1)).drop offset).take count))

/-! ### The rows of the arrays -/

namespace ColumnVector
variable {v : ColumnVector t} {rows : List (Native t × Bool)}

/-- Every row of the arrays, also those behind the size. -/
def stored (v : ColumnVector t) : List (Native t × Bool) := v.data.zip (v.nulls.map (· != 0))

/-- What a column of a capacity becomes: its rows, and then those appended. -/
structure Follows (capacity : Nat) (v : ColumnVector t) (rows : List (Native t × Bool)) : Prop where
  paired : v.data.length = v.nulls.length
  size : v.size = rows.length
  stored : v.stored = List.replicate capacity (0, false) ++ rows

theorem follows_ofCapacity (t : DataType) (capacity : Nat) : Follows capacity (ofCapacity t capacity) [] where
  paired := by simp [ofCapacity]
  size := rfl
  stored := by simp [ColumnVector.stored, ofCapacity]

/-- What is appended to both arrays, as many values as null bytes, are rows behind the others. -/
theorem Follows.appended {capacity : Nat} (h : Follows capacity v rows) (values : List (Native t))
    (bytes : List UInt8) (hbytes : values.length = bytes.length) :
    Follows capacity ⟨v.data ++ values, v.nulls ++ bytes, v.size + values.length⟩
      (rows ++ values.zip (bytes.map (· != 0))) := by
  have hlen : v.data.length = (v.nulls.map (· != 0)).length := by rw [List.length_map, h.paired]
  constructor
  · show (v.data ++ values).length = (v.nulls ++ bytes).length
    rw [List.length_append, List.length_append, h.paired, hbytes]
  · show v.size + values.length = _
    rw [List.length_append, List.length_zip, List.length_map, ← hbytes, Nat.min_self, h.size]
  · show (v.data ++ values).zip ((v.nulls ++ bytes).map (· != 0)) = _
    rw [List.map_append, List.zip_append hlen, ← List.append_assoc, ← h.stored]
    rfl

/-- A call appends its rows to both arrays. -/
theorem Follows.apply {capacity : Nat} (h : Follows capacity v rows) (call : AppendCall t) :
    Follows capacity (call.apply v) (rows ++ call.rows) := by
  cases call with
  | append value => exact h.appended [value] [0] rfl
  | appendBatch b =>
    refine h.appended b.values b.nullBytes ?_
    unfold BulkAppend.nullBytes
    cases hnulls : b.nulls with
    | none => simp
    | some bytes => exact (b.flagged bytes hnulls).symm
  | appendNull => exact h.appended [0] [1] rfl

theorem Follows.run {capacity : Nat} (h : Follows capacity v rows) (calls : List (AppendCall t)) :
    Follows capacity (v.run calls) (rows ++ appendedRows calls) := by
  induction calls generalizing v rows with
  | nil => simpa [ColumnVector.run, appendedRows] using h
  | cons call rest ih =>
    have hrest := ih (h.apply call)
    rwa [List.append_assoc] at hrest

/-! ### Reading from the front -/

theorem stored_getElem? {i : Nat} {row : Native t × Bool} (h : v.stored[i]? = some row) :
    v.get i = .ok row.1 ∧ v.isNull i = .ok row.2 := by
  obtain ⟨hvalue, hnull⟩ := List.getElem?_zip_eq_some.mp h
  rw [List.getElem?_map, Option.map_eq_some_iff] at hnull
  obtain ⟨byte, hbyte, hflag⟩ := hnull
  constructor
  · rw [ColumnVector.get, hvalue, orFault_some]
  · rw [ColumnVector.isNull, hbyte, orFault_some, bind_ok, hflag, pure_eq_ok]

/-- The null count of a column whose first rows are known. -/
theorem nullCount_of_take (hsize : v.size = rows.length) (h : v.stored.take rows.length = rows) :
    v.nullCount = .ok (rows.countP (·.2)) := by
  obtain ⟨count, hloop, rfl⟩ := foldlM_range_invariant
    (fun cnt i => do return if ← v.isNull i then cnt + 1 else cnt)
    (fun k cnt => cnt = (rows.take k).countP (·.2)) rows.length 0 rfl (by
      rintro k cnt hk rfl
      have hrow : v.stored[k]? = some rows[k] := by
        rw [← List.getElem?_take_of_lt hk, h, List.getElem?_eq_getElem hk]
      rw [(stored_getElem? hrow).2, bind_ok, List.take_add_one, List.getElem?_eq_getElem hk, List.countP_append]
      refine ⟨_, rfl, ?_⟩
      cases hnull : rows[k].2 <;> simp [hnull])
  rwa [List.take_length, ← hsize] at hloop

/-- A column holds rows exactly when its arrays begin with them. -/
theorem holds_iff_take (hpaired : v.data.length = v.nulls.length) (hsize : v.size = rows.length) :
    v.Holds rows ↔ v.stored.take rows.length = rows := by
  have hlen : v.stored.length = v.data.length := by
    rw [ColumnVector.stored, List.length_zip, List.length_map, ← hpaired, Nat.min_self]
  constructor
  · intro h
    refine List.ext_getElem? fun i => ?_
    rcases Nat.lt_or_ge i rows.length with hi | hi
    · have hget := h.get i rows[i] (List.getElem?_eq_getElem hi)
      have hnull := h.isNull i rows[i] (List.getElem?_eq_getElem hi)
      rw [ColumnVector.get, orFault_eq_ok] at hget
      obtain ⟨byte, hbyte, hflag⟩ := bind_eq_ok.mp hnull
      rw [List.getElem?_take_of_lt hi, List.getElem?_eq_getElem hi, ColumnVector.stored]
      refine List.getElem?_zip_eq_some.mpr ⟨hget, ?_⟩
      rw [List.getElem?_map, orFault_eq_ok.mp hbyte, Option.map_some, Except.ok.inj hflag]
    · rw [List.getElem?_eq_none hi, List.getElem?_eq_none ((List.length_take_le _ _).trans hi)]
  · intro h
    have hrow : ∀ (i : Nat) (row : Native t × Bool), rows[i]? = some row → v.stored[i]? = some row := by
      intro i row hi
      rw [← h, List.getElem?_take] at hi
      split at hi
      · exact hi
      · cases hi
    have hle : rows.length ≤ v.data.length := by
      rw [← hlen]
      exact (congrArg List.length h).ge.trans (List.length_take_le' _ _)
    have hvalues : v.data.take rows.length = rows.map (·.1) := by
      have hfst : v.stored.map (·.1) = v.data := List.map_fst_zip (by rw [List.length_map, hpaired])
      rw [← hfst, ← List.map_take, h]
    refine ⟨hsize, fun i row hi => (stored_getElem? (hrow i row hi)).1,
      fun i row hi => (stored_getElem? (hrow i row hi)).2, nullCount_of_take hsize h, fun offset count hin => ?_⟩
    rw [Column.readValues, if_pos (hin.trans hle), ← hvalues, List.drop_take, List.take_take,
      Nat.min_eq_left (by omega)]

end ColumnVector

/-! ### Rows in front -/

/-- A list behind copies of one element begins with itself only if there are no copies, or
it is made of them too. -/
theorem take_padded_iff {α : Type} {n : Nat} {a : α} {xs : List α} :
    (List.replicate n a ++ xs).take xs.length = xs ↔ n = 0 ∨ ∀ x ∈ xs, x = a := by
  constructor
  · intro h
    rw [or_iff_not_imp_left]
    intro hn
    have hall : ∀ i (hi : i < xs.length), xs[i] = a := by
      intro i
      induction i using Nat.strong_induction_on with
      | _ i ih =>
        intro hi
        have hget := congrArg (·[i]?) h
        simp only [List.getElem?_take_of_lt hi, List.getElem?_append, List.length_replicate,
          List.getElem?_eq_getElem hi] at hget
        split at hget
        · next hlt =>
          rw [List.getElem?_replicate_of_lt hlt] at hget
          exact (Option.some.inj hget).symm
        · rw [List.getElem?_eq_getElem (by omega)] at hget
          rw [← Option.some.inj hget]
          exact ih (i - n) (by omega) (by omega)
    intro x hx
    obtain ⟨i, hi, rfl⟩ := List.mem_iff_getElem.mp hx
    exact hall i hi
  · intro h
    rcases h with rfl | h
    · simp
    · rw [List.eq_replicate_of_mem h, List.length_replicate, List.replicate_append_replicate, List.take_replicate,
        Nat.min_eq_left (Nat.le_add_left _ _)]

/-- **After any appends a column made with a capacity holds what was appended exactly when
the capacity is zero, or every row appended is a zero that is not null.** -/
theorem holds_appended_iff {capacity : Nat} {v : ColumnVector t}
    (hnew : Column.create t capacity = some ⟨t, v⟩ ∨ v = .ofCapacity t capacity) (calls : List (AppendCall t)) :
    (v.run calls).Holds (appendedRows calls) ↔ capacity = 0 ∨ ∀ row ∈ appendedRows calls, row = (0, false) := by
  have hv : v = .ofCapacity t capacity := by
    rcases hnew with hcreate | hv
    · unfold Column.create at hcreate
      split at hcreate
      · cases hcreate
      · cases hcreate
        rfl
    · exact hv
  have h := (ColumnVector.follows_ofCapacity t capacity).run calls
  rw [List.nil_append, ← hv] at h
  rw [ColumnVector.holds_iff_take h.paired h.size, h.stored, take_padded_iff]

/-- A column of no capacity, with a value, a null and a batch. -/
def mixedCalls : List (AppendCall .int32) :=
  [.append 7, .appendNull, .appendBatch ⟨[1, 2], some [0, 255], by simp⟩]

theorem mixedCalls_held : (ColumnVector.run (.ofCapacity .int32 0) mixedCalls).Holds (appendedRows mixedCalls) :=
  (holds_appended_iff (.inl rfl) mixedCalls).mpr (.inl rfl)

/-- A column made with room for one row reads as the zero it was filled with. -/
theorem capacityOne_not_held : ∃ v, Column.create .int32 1 = some ⟨.int32, v⟩ ∧
    ¬ (v.run [.append 7]).Holds (appendedRows [.append 7]) := by
  refine ⟨_, rfl, fun h => ?_⟩
  cases h.get 0 (7, false) rfl

end ColumnarStore
