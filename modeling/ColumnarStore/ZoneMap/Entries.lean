import ColumnarStore.ZoneMap

/-! What building a zone map leaves in its entries.

An update is one pass over the rows of a block: the bounds are those of the non-null
values, the row count is new, and the null count goes up by the nulls behind the first
valid row. The nulls ahead of it are never counted, unless no row is valid. -/
namespace ColumnarStore
open Foundation
variable {t : DataType}

/-! ### Rows with their null flags -/

/-- The values of a column with their null flags; without an array of flags none is null. -/
def flagged {α : Type} (data : List α) (nulls : Option (List Bool)) : List (α × Bool) :=
  data.zip (nulls.getD (List.replicate data.length false))

/-- The null flags, where there are any, cover the values. -/
def Covers {α : Type} (nulls : Option (List Bool)) (data : List α) : Prop :=
  ∀ flags ∈ nulls, data.length ≤ flags.length

def validValues {α : Type} (rows : List (α × Bool)) : List α := (rows.filter fun row => !row.2).map (·.1)

def nullRows {α : Type} (rows : List (α × Bool)) : Nat := rows.countP (·.2)

/-- The null rows behind the first valid one. -/
def lateNulls {α : Type} (rows : List (α × Bool)) : Nat := nullRows (rows.dropWhile (·.2))

section Rows
variable {α : Type} {rows : List (α × Bool)} {data : List α} {nulls : Option (List Bool)}

theorem covers_none (data : List α) : Covers none data := nofun

theorem length_flagged (h : Covers nulls data) : (flagged data nulls).length = data.length := by
  cases nulls with
  | none => simp [flagged]
  | some flags => simpa [flagged] using h flags rfl

theorem take_zip {β : Type} (n : Nat) (xs : List α) (ys : List β) : (xs.zip ys).take n = (xs.take n).zip ys := by
  induction n generalizing xs ys with
  | zero => rfl
  | succ n ih =>
    cases xs with
    | nil => rfl
    | cons x xs =>
      cases ys with
      | nil => rfl
      | cons y ys => exact congrArg _ (ih xs ys)

theorem zip_replicate {xs : List α} {n : Nat} (h : xs.length ≤ n) :
    xs.zip (List.replicate n false) = xs.map fun x => (x, false) := by
  induction xs generalizing n with
  | nil => rfl
  | cons x rest ih =>
    cases n with
    | zero => cases h
    | succ n => exact congrArg _ (ih (Nat.le_of_succ_le_succ h))

theorem flagged_none (data : List α) : flagged data none = data.map fun x => (x, false) := zip_replicate le_rfl

/-- A block of the flagged rows is the block of the values, flagged from its first flag on. -/
theorem block_flagged (blockRows b : Nat) (data : List α) (nulls : Option (List Bool)) :
    ZoneMap.block blockRows b (flagged data nulls) =
      flagged (ZoneMap.block blockRows b data) (nulls.map (List.drop (b * blockRows))) := by
  rw [ZoneMap.block, flagged, List.zip, List.drop_zipWith, ← List.zip, take_zip]
  cases nulls with
  | some flags => rfl
  | none =>
    rw [Option.map_none, flagged_none, Option.getD_none, List.drop_replicate, ZoneMap.block]
    refine zip_replicate ?_
    rw [List.length_take, List.length_drop]
    exact Nat.min_le_right _ _

theorem covers_block (h : Covers nulls data) (blockRows b : Nat) :
    Covers (nulls.map (List.drop (b * blockRows))) (ZoneMap.block blockRows b data) := by
  intro flags hflags
  obtain ⟨all, hall, rfl⟩ := Option.map_eq_some_iff.mp hflags
  have hlen := h all hall
  rw [ZoneMap.block, List.length_take, List.length_drop, List.length_drop]
  omega

theorem validValues_eq_nil_iff : validValues rows = [] ↔ ∀ row ∈ rows, row.2 = true := by
  rw [validValues, List.map_eq_nil_iff, List.filter_eq_nil_iff]
  simp only [Bool.not_eq_true', Bool.not_eq_false]

/-- Skipping the nulls ahead of the first valid row loses no value. -/
theorem validValues_dropWhile (rows : List (α × Bool)) : validValues (rows.dropWhile (·.2)) = validValues rows := by
  induction rows with
  | nil => rfl
  | cons row rest ih =>
    rw [List.dropWhile_cons]
    split
    · next h => rw [ih, validValues, validValues, List.filter_cons_of_neg (by simpa using h)]
    · rfl

/-- Without null flags every value is valid. -/
theorem validValues_unflagged (data : List α) : validValues (data.map fun x => (x, false)) = data := by
  simp [validValues, List.filter_map, Function.comp_def]

theorem lateNulls_unflagged (data : List α) : lateNulls (data.map fun x => (x, false)) = 0 := by
  cases data <;> simp [lateNulls, nullRows]

end Rows

/-! ### One update -/

namespace ZoneMapEntry

/-- The pass behind the first valid row. -/
theorem foldl_scanRow (rows : List (Native t × Bool)) (lo hi : Native t) (nullCount : BitVec 32) :
    rows.foldl (scanRow t) (lo, hi, nullCount) =
      (((validValues rows).foldl (fun (lo, hi) y => (Native.min t lo y, Native.max t hi y)) (lo, hi)).1,
        ((validValues rows).foldl (fun (lo, hi) y => (Native.min t lo y, Native.max t hi y)) (lo, hi)).2,
        nullCount + BitVec.ofNat 32 (nullRows rows)) := by
  induction rows generalizing lo hi nullCount with
  | nil => simp [validValues, nullRows]
  | cons row rest ih =>
    obtain ⟨x, flag⟩ := row
    rw [List.foldl_cons]
    cases flag with
    | true =>
      have hcount : nullRows ((x, true) :: rest) = nullRows rest + 1 := List.countP_cons_of_pos rfl
      rw [hcount, Nat.add_comm, BitVec.ofNat_add, ← BitVec.add_assoc]
      exact ih lo hi (nullCount + 1)
    | false => exact ih _ _ nullCount

/-- An entry of an integer column after an update by the rows of a block. -/
def summary (e : ZoneMapEntry) (t : DataType) (rows : List (Native t × Bool)) : ZoneMapEntry :=
  match validValues rows with
  | [] => {e with nullCount := BitVec.ofNat 32 rows.length, rowCount := BitVec.ofNat 32 rows.length, hasNulls := true}
  | x :: rest =>
    let nullCount := e.nullCount + BitVec.ofNat 32 (lateNulls rows)
    {e with minInt := (Native.bounds t x rest).1.toInt64 t
            maxInt := (Native.bounds t x rest).2.toInt64 t
            nullCount
            rowCount := BitVec.ofNat 32 rows.length
            hasMinMax := true
            hasNulls := 0 < nullCount}

/-- The pass, from the first valid row on. -/
theorem pass_eq_summary (e : ZoneMapEntry) (rows : List (Native t × Bool)) :
    (match rows.dropWhile (·.2) with
      | [] => {e with nullCount := BitVec.ofNat 32 rows.length, rowCount := BitVec.ofNat 32 rows.length
                      hasNulls := true}
      | first :: rest =>
        let (lo, hi, nullCount) := rest.foldl (scanRow t) (first.1, first.1, e.nullCount)
        {e with minInt := lo.toInt64 t, maxInt := hi.toInt64 t, nullCount
                rowCount := BitVec.ofNat 32 rows.length, hasMinMax := true, hasNulls := 0 < nullCount}) =
      e.summary t rows := by
  have hvalid := validValues_dropWhile rows
  rw [summary, lateNulls]
  cases hrows : rows.dropWhile (·.2) with
  | nil =>
    rw [hrows] at hvalid
    rw [← hvalid]
    rfl
  | cons first rest =>
    obtain ⟨x, flag⟩ := first
    have hflag : flag = false := by
      have := List.head_dropWhile_not (fun row : Native t × Bool => row.2) (by rw [hrows]; exact List.cons_ne_nil _ _)
      simpa [hrows] using this
    subst hflag
    rw [hrows] at hvalid
    rw [← hvalid]
    simp only [foldl_scanRow]
    rfl

theorem update_eq (ht : t.isInteger = true) (e : ZoneMapEntry) {data : List (Native t)} (hdata : data ≠ [])
    {nulls : Option (List Bool)} (hnulls : Covers nulls data) :
    e.update t data nulls = .ok (e.summary t (flagged data nulls)) := by
  have hlen : data.length ≠ 0 := fun h => hdata (List.length_eq_zero_iff.mp h)
  have hpass := pass_eq_summary e (flagged data nulls)
  rw [length_flagged hnulls] at hpass
  rw [← hpass, update, if_neg hlen, ht, Bool.true_or, if_pos rfl]
  cases nulls with
  | none =>
    simp only [flagged, Option.getD_none, bind_ok, pure_eq_ok, if_true]
    cases (data.zip (List.replicate data.length false)).dropWhile (·.2) <;> rfl
  | some flags =>
    simp only [flagged, Option.getD_some, if_pos (hnulls flags rfl), bind_ok, pure_eq_ok, if_true]
    cases (data.zip flags).dropWhile (·.2) <;> rfl

end ZoneMapEntry

/-! ### A whole build -/

namespace ZoneMap

theorem block_ne_nil {α : Type} {blockRows b : Nat} {rows : List α}
    (hb : b < blocksFor blockRows rows.length) : block blockRows b rows ≠ [] := by
  have hlt := mul_lt_of_lt_blocksFor hb
  have hpos : blockRows ≠ 0 := by
    rintro rfl
    rw [blocksFor, Nat.div_zero] at hb
    exact absurd hb (Nat.not_lt_zero b)
  rw [← List.length_pos_iff_ne_nil, block, List.length_take, List.length_drop]
  omega

/-- Every block of rows updates the entry that was there, or a fresh one. -/
theorem buildFromColumn_eq (ht : t.isInteger = true) (zm : ZoneMap) (hpos : 0 < zm.blockRows)
    {data : List (Native t)} {nulls : Option (List Bool)} (hnulls : Covers nulls data) :
    zm.buildFromColumn t data nulls = .ok
      {zm with entries := (List.range (blocksFor zm.blockRows data.length)).map fun b =>
        (zm.entries.getD b {}).summary t (block zm.blockRows b (flagged data nulls))} := by
  have hentries : ((List.range (blocksFor zm.blockRows data.length)).mapM fun b =>
      (zm.entries.getD b {}).update t (block zm.blockRows b data) (nulls.map (List.drop (b * zm.blockRows)))) =
      .ok ((List.range (blocksFor zm.blockRows data.length)).map fun b =>
        (zm.entries.getD b {}).summary t (block zm.blockRows b (flagged data nulls))) := by
    refine mapM_ok fun b hb => ?_
    rw [ZoneMapEntry.update_eq ht _ (block_ne_nil (List.mem_range.mp hb)) (covers_block hnulls _ b), block_flagged]
  simp only [buildFromColumn, if_neg hpos.ne', hentries, bind_ok, pure_eq_ok]

end ZoneMap

end ColumnarStore
