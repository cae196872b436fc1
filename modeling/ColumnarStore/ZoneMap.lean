import ColumnarStore.Column

/-! Zone maps: the bounds of a column, block of rows by block of rows.

`BuildFromColumn` cuts the rows into blocks of its own `block_rows` and notes each
block's least and greatest value. `ShouldScanBlock` compares a constant with the
bounds of the block of a given number; a number past the last block, or a block
without bounds, is always scanned. -/
namespace ColumnarStore
open Foundation

/-! ### Entries -/

structure ZoneMapEntry where
  minInt : Int64Bits := 0
  maxInt : Int64Bits := 0
  minFp : BitVec 64 := 0
  maxFp : BitVec 64 := 0
  nullCount : BitVec 32 := 0
  rowCount : BitVec 32 := 0
  hasMinMax : Bool := false
  hasNulls : Bool := false
  deriving DecidableEq, Repr

namespace ZoneMapEntry

/-- One row after the first valid one: a null is counted, a value compared. -/
def scanRow (t : DataType) (acc : Native t × Native t × BitVec 32) (row : Native t × Bool) :
    Native t × Native t × BitVec 32 :=
  let (lo, hi, nullCount) := acc
  if row.2 then (lo, hi, nullCount + 1) else (Native.min t lo row.1, Native.max t hi row.1, nullCount)

/-- Nulls ahead of the first valid row are not counted, and the count starts from the
entry's own. -/
def update (e : ZoneMapEntry) (t : DataType) (data : List (Native t)) (nulls : Option (List Bool)) :
    Outcome ZoneMapEntry :=
  if data.length = 0 then .ok e
  else if t.isInteger || t.isFloatingPoint then do
    let flags ← match nulls with
      | none => .ok (List.replicate data.length false)
      | some flags => if data.length ≤ flags.length then .ok flags else .error .outOfBounds
    let count := BitVec.ofNat 32 data.length
    match (data.zip flags).dropWhile (·.2) with
    | [] => return {e with nullCount := count, rowCount := count, hasNulls := true}
    | first :: rest =>
      let (lo, hi, nullCount) := rest.foldl (scanRow t) (first.1, first.1, e.nullCount)
      let e := if t.isInteger then {e with minInt := lo.toInt64 t, maxInt := hi.toInt64 t}
        else {e with minFp := lo.toDouble t, maxFp := hi.toDouble t}
      return {e with nullCount, rowCount := count, hasMinMax := true, hasNulls := 0 < nullCount}
  else .ok e

/-- A constant against bounds, under the comparisons of its domain. -/
def boundsMatch {α : Type} (eq lt : α → α → Bool) (lo hi val : α) : PredicateType → Bool
  | .equal => (lt lo val || eq lo val) && (lt val hi || eq val hi)
  | .notEqual => !(eq lo val && eq hi val)
  | .lessThan => lt lo val
  | .lessEqual => lt lo val || eq lo val
  | .greaterThan => lt val hi
  | .greaterEqual => lt val hi || eq val hi
  | _ => true

def canMatch (e : ZoneMapEntry) (t : DataType) (pred : PredicateType) (value : Native t) : Bool :=
  if !e.hasMinMax then true
  else if pred = .isNull then e.hasNulls
  else if pred = .isNotNull then e.nullCount < e.rowCount
  else if e.rowCount = 0 then false
  else if t.isInteger then
    boundsMatch (· == ·) BitVec.slt e.minInt e.maxInt (value.toInt64 t) pred
  else if t.isFloatingPoint then
    boundsMatch (Native.eq .double) (Native.lt .double) e.minFp e.maxFp (value.toDouble t) pred
  else true

end ZoneMapEntry

/-! ### Maps -/

structure ZoneMap where
  entries : List ZoneMapEntry := []
  blockRows : Nat := kZoneMapBlockRows
  deriving DecidableEq, Repr

namespace ZoneMap

/-- The number of blocks for `count` rows; the sum wraps. -/
def blocksFor (blockRows count : Nat) : Nat := (count + blockRows - 1) % 2 ^ 64 / blockRows

/-- Every block begins with a row. -/
theorem mul_lt_of_lt_blocksFor {blockRows count b : Nat} (hb : b < blocksFor blockRows count) :
    b * blockRows < count := by
  have hpos : 0 < blockRows := by
    by_contra h
    rw [Nat.eq_zero_of_not_pos h, blocksFor, Nat.div_zero] at hb
    omega
  have hle : (b + 1) * blockRows ≤ count + blockRows - 1 :=
    ((Nat.le_div_iff_mul_le hpos).mp hb).trans (Nat.mod_le _ _)
  rw [Nat.succ_mul] at hle
  omega

/-- Block `b` of an array. -/
def block {α : Type} (blockRows b : Nat) (rows : List α) : List α :=
  (rows.drop (b * blockRows)).take blockRows

/-- Entries of an earlier build are kept and updated again. -/
def buildFromColumn (zm : ZoneMap) (t : DataType) (data : List (Native t))
    (nulls : Option (List Bool)) : Outcome ZoneMap :=
  if zm.blockRows = 0 then .error .divisionByZero
  else do
    let numBlocks := blocksFor zm.blockRows data.length
    let entries ← (List.range numBlocks).mapM fun b =>
      (zm.entries.getD b {}).update t (block zm.blockRows b data)
        (nulls.map (List.drop (b * zm.blockRows)))
    return {zm with entries}

def numBlocks (zm : ZoneMap) : Nat := zm.entries.length

/-- An entry against one of the predicates a scan can prune by. -/
def shouldScan (e : ZoneMapEntry) (t : DataType) (pred : PredicateType) (value : Native t) : Bool :=
  match pred with
  | .equal | .notEqual | .lessThan | .lessEqual | .greaterThan | .greaterEqual =>
    e.canMatch t pred value
  | .isNull => e.hasNulls
  | .isNotNull => e.nullCount < e.rowCount
  | _ => true

def shouldScanBlock (zm : ZoneMap) (blockIdx : Nat) (t : DataType) (pred : PredicateType)
    (value : Native t) : Bool :=
  match zm.entries[blockIdx]? with
  | none => true
  | some e => if t.isInteger || t.isFloatingPoint then shouldScan e t pred value else true

/-! ### The stored form -/

def storeBool (b : Bool) : List UInt8 := storeWord 1 (if b then 1 else 0)

def storeEntry (e : ZoneMapEntry) : List UInt8 :=
  storeWord 8 e.minInt ++ storeWord 8 e.maxInt ++ storeWord 8 e.minFp ++ storeWord 8 e.maxFp ++
    storeWord 4 e.nullCount ++ storeWord 4 e.rowCount ++ storeBool e.hasMinMax ++ storeBool e.hasNulls

/-- `block_rows` is cut to 32 bits. -/
def write (zm : ZoneMap) : List UInt8 :=
  storeWord 4 (BitVec.ofNat 32 zm.entries.length) ++ storeWord 4 (BitVec.ofNat 32 zm.blockRows) ++
    zm.entries.flatMap storeEntry

/-- An entry and the bytes behind it. -/
def loadEntry (ptr : List UInt8) : Option (ZoneMapEntry × List UInt8) := do
  let (minInt, ptr) ← nextWord 8 ptr
  let (maxInt, ptr) ← nextWord 8 ptr
  let (minFp, ptr) ← nextWord 8 ptr
  let (maxFp, ptr) ← nextWord 8 ptr
  let (nullCount, ptr) ← nextWord 4 ptr
  let (rowCount, ptr) ← nextWord 4 ptr
  let (hasMinMax, ptr) ← nextWord 1 ptr
  let (hasNulls, ptr) ← nextWord 1 ptr
  return (⟨minInt, maxInt, minFp, maxFp, nullCount, rowCount, hasMinMax != 0, hasNulls != 0⟩, ptr)

def loadEntries : Nat → List UInt8 → Option (List ZoneMapEntry)
  | 0, _ => some []
  | numBlocks + 1, ptr => do
    let (e, ptr) ← loadEntry ptr
    let rest ← loadEntries numBlocks ptr
    return e :: rest

def read (data : List UInt8) : Outcome ZoneMap := orFault .outOfBounds do
  let (numBlocks, ptr) ← nextWord 4 data
  let (blockRows, ptr) ← nextWord 4 ptr
  let entries ← loadEntries numBlocks.toNat ptr
  return {entries, blockRows := blockRows.toNat}

/-! ### Storing and loading -/

theorem loadEntry_storeEntry (e : ZoneMapEntry) (rest : List UInt8) :
    loadEntry (storeEntry e ++ rest) = some (e, rest) := by
  have hbool : ∀ b : Bool, ((if b = true then 1#8 else 0#8) != 0#8) = b := by decide
  simp [loadEntry, storeEntry, storeBool, hbool]

theorem loadEntries_storeEntries (entries : List ZoneMapEntry) :
    loadEntries entries.length (entries.flatMap storeEntry) = some entries := by
  induction entries with
  | nil => rfl
  | cons e rest ih => simp [loadEntries, loadEntry_storeEntry, ih]

/-- A stored map comes back with its block size cut to 32 bits. -/
theorem read_write {zm : ZoneMap} (hentries : zm.entries.length < 2 ^ 32) :
    read zm.write = .ok {zm with blockRows := zm.blockRows % 2 ^ 32} := by
  have hcount : (BitVec.ofNat 32 zm.entries.length).toNat = zm.entries.length := toNat_ofNat_of_lt hentries
  have hrows : (BitVec.ofNat 32 zm.blockRows).toNat = zm.blockRows % 2 ^ 32 := BitVec.toNat_ofNat ..
  simp only [read, write, List.append_assoc, nextWord_storeWord, Option.bind_eq_bind, Option.bind_some,
    hcount, loadEntries_storeEntries, Option.pure_def, hrows, orFault_some]

end ZoneMap

end ColumnarStore
