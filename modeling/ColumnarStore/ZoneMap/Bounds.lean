import ColumnarStore.Predicate.Chain
import ColumnarStore.ZoneMap.Entries

/-! What the bounds of a block tell about its rows.

A comparison matches the bounds of a block when some value of the block compares so, or,
for equality, when the constant lies among the values. So a block with a matching row is
scanned, whatever its nulls (`zoneMap_exact`). -/
namespace ColumnarStore
open Foundation Predicates

/-! ### The six comparisons -/

namespace Predicates.CompareOp

def predicateType : CompareOp → PredicateType
  | eq => .equal
  | ne => .notEqual
  | lt => .lessThan
  | le => .lessEqual
  | gt => .greaterThan
  | ge => .greaterEqual

/-- What the comparison asks of a pair of bounds. -/
def Within (op : CompareOp) (lo hi v : Int) : Prop :=
  match op with
  | eq => lo ≤ v ∧ v ≤ hi
  | ne => ¬ (lo = v ∧ hi = v)
  | lt => lo < v
  | le => lo ≤ v
  | gt => v < hi
  | ge => v ≤ hi

end Predicates.CompareOp

/-- Some value compares so with the constant or, for equality, the constant lies among the
values. -/
def Reaches (op : CompareOp) (values : List Int) (v : Int) : Prop :=
  (∃ x ∈ values, op.holds x v = true) ∨ op = .eq ∧ (∃ x ∈ values, x ≤ v) ∧ ∃ x ∈ values, v ≤ x

/-- Bounds around a value that compares so match the constant. -/
theorem within_of_holds {op : CompareOp} {lo hi x v : Int} (hx : lo ≤ x ∧ x ≤ hi) (h : op.holds x v = true) :
    op.Within lo hi v := by
  cases op with
  | eq => exact of_decide_eq_true h ▸ hx
  | ne => exact fun hboth => of_decide_eq_true h (le_antisymm (hx.2.trans hboth.2.le) (hboth.1 ▸ hx.1))
  | lt => exact hx.1.trans_lt (of_decide_eq_true h)
  | le => exact hx.1.trans (of_decide_eq_true h)
  | gt => exact (of_decide_eq_true h).trans_le hx.2
  | ge => exact (of_decide_eq_true h).trans hx.2

/-- Bounds that are values themselves match only what the values reach. -/
theorem reaches_of_within {values : List Int} {lo hi : Int} (hlo : lo ∈ values) (hhi : hi ∈ values) {op : CompareOp}
    {v : Int} (h : op.Within lo hi v) : Reaches op values v := by
  cases op with
  | eq => exact .inr ⟨rfl, ⟨lo, hlo, h.1⟩, hi, hhi, h.2⟩
  | ne =>
    by_cases hv : lo = v
    · exact .inl ⟨hi, hhi, decide_eq_true fun heq => h ⟨hv, heq⟩⟩
    · exact .inl ⟨lo, hlo, decide_eq_true hv⟩
  | lt => exact .inl ⟨lo, hlo, decide_eq_true h⟩
  | le => exact .inl ⟨lo, hlo, decide_eq_true h⟩
  | gt => exact .inl ⟨hi, hhi, decide_eq_true h⟩
  | ge => exact .inl ⟨hi, hhi, decide_eq_true h⟩

/-- What values reach is told by their bounds. -/
theorem within_iff_reaches {values : List Int} {lo hi : Int} (hlo : lo ∈ values) (hhi : hi ∈ values)
    (hall : ∀ x ∈ values, lo ≤ x ∧ x ≤ hi) (op : CompareOp) (v : Int) :
    op.Within lo hi v ↔ Reaches op values v := by
  refine ⟨reaches_of_within hlo hhi, fun h => ?_⟩
  rcases h with ⟨x, hx, hholds⟩ | ⟨rfl, ⟨x, hx, hxv⟩, y, hy, hvy⟩
  · exact within_of_holds (hall x hx) hholds
  · exact ⟨(hall x hx).1.trans hxv, hvy.trans (hall y hy).2⟩

namespace ZoneMapEntry

/-- The test of the bounds, as numbers. -/
theorem boundsMatch_iff (lo hi v : Int64Bits) (op : CompareOp) :
    boundsMatch (· == ·) BitVec.slt lo hi v op.predicateType = true ↔ op.Within lo.toInt hi.toInt v.toInt := by
  have heq : ∀ a b : Int64Bits, (a == b) = decide (a.toInt = b.toInt) := by
    intro a b
    rw [Bool.eq_iff_iff, beq_iff_eq, decide_eq_true_eq, BitVec.toInt_inj]
  cases op with
  | ne =>
    simp only [CompareOp.predicateType, boundsMatch, heq, Bool.not_eq_true', Bool.and_eq_false_iff,
      decide_eq_false_iff_not]
    exact not_and_or.symm
  | _ =>
    simp [CompareOp.predicateType, CompareOp.Within, boundsMatch, BitVec.slt_eq_decide, heq, le_iff_lt_or_eq]

theorem rowCount_eq_zero_iff (n : Nat) : BitVec.ofNat 32 n = 0 ↔ n % 2 ^ 32 = 0 := by
  rw [← BitVec.toNat_inj, BitVec.toNat_ofNat]
  rfl

section Summaries
variable {t : DataType} (ht : t.isInteger = true)
include ht

/-- The bounds of a block with a valid row. -/
theorem summary_bounds (e : ZoneMapEntry) {rows : List (Native t × Bool)} (hvalid : validValues rows ≠ []) :
    IsLeast {k | k ∈ (validValues rows).map BitVec.toInt} (e.summary t rows).minInt.toInt ∧
      IsGreatest {k | k ∈ (validValues rows).map BitVec.toInt} (e.summary t rows).maxInt.toInt := by
  cases hrows : validValues rows with
  | nil => exact absurd hrows hvalid
  | cons x rest =>
    obtain ⟨hlo, hhi, hall⟩ := Native.bounds_spec ht x rest
    simp only [summary, hrows, Native.toInt_toInt64 ht]
    refine ⟨⟨List.mem_map_of_mem hlo, fun k hk => ?_⟩, List.mem_map_of_mem hhi, fun k hk => ?_⟩
    · obtain ⟨y, hy, rfl⟩ := List.mem_map.mp hk
      exact (hall y hy).1
    · obtain ⟨y, hy, rfl⟩ := List.mem_map.mp hk
      exact (hall y hy).2

/-- The entry of a block with a valid row matches what its values reach, unless the 32-bit
row count has gone round to 0. -/
theorem canMatch_summary (e : ZoneMapEntry) {rows : List (Native t × Bool)} (hvalid : validValues rows ≠ [])
    (op : CompareOp) (v : Native t) :
    (e.summary t rows).canMatch t op.predicateType v = true ↔
      rows.length % 2 ^ 32 ≠ 0 ∧ Reaches op ((validValues rows).map BitVec.toInt) v.toInt := by
  obtain ⟨hleast, hgreatest⟩ := summary_bounds ht e hvalid
  rw [← within_iff_reaches hleast.1 hgreatest.1 fun x hx => ⟨hleast.2 hx, hgreatest.2 hx⟩, ← Native.toInt_toInt64 ht v,
    ← boundsMatch_iff]
  have hnull : op.predicateType ≠ .isNull ∧ op.predicateType ≠ .isNotNull := by
    cases op <;> exact ⟨by decide, by decide⟩
  have hstats : (e.summary t rows).hasMinMax = true ∧ (e.summary t rows).rowCount = BitVec.ofNat 32 rows.length := by
    cases hrows : validValues rows with
    | nil => exact absurd hrows hvalid
    | cons x rest =>
      simp only [summary, hrows]
      exact ⟨trivial, trivial⟩
  rw [canMatch, hstats.1, hstats.2]
  simp only [Bool.not_true, Bool.false_eq_true, if_false, hnull.1, hnull.2, ht, if_true, rowCount_eq_zero_iff]
  by_cases hzero : rows.length % 2 ^ 32 = 0
  · rw [if_pos hzero]
    exact iff_of_false Bool.false_ne_true fun h => h.1 hzero
  · rw [if_neg hzero, and_iff_right hzero]

omit ht in
/-- A fresh entry of a block without a valid row has no bounds and matches everything. -/
theorem canMatch_summary_null {rows : List (Native t × Bool)} (hvalid : validValues rows = []) (op : CompareOp)
    (v : Native t) : (summary {} t rows).canMatch t op.predicateType v = true := by
  simp only [summary, hvalid, canMatch, Bool.not_false, if_true]

end Summaries

end ZoneMapEntry

/-! ### A fresh map -/

namespace ZoneMap
variable {t : DataType} (ht : t.isInteger = true) {values : List (Native t)} {nulls : Option (List Bool)}
  (hnulls : Covers nulls values) {blockRows : Nat} {zm : ZoneMap}
include ht hnulls

theorem eq_of_buildFromColumn (h : buildFromColumn {blockRows} t values nulls = .ok zm) :
    zm = { entries := (List.range (blocksFor blockRows values.length)).map fun b =>
             ZoneMapEntry.summary {} t (block blockRows b (flagged values nulls))
           blockRows } := by
  have hpos : 0 < blockRows := by
    by_contra hzero
    rw [buildFromColumn, if_pos (Nat.eq_zero_of_not_pos hzero)] at h
    cases h
  rw [buildFromColumn_eq ht {blockRows} hpos hnulls] at h
  cases h
  simp only [List.getD_nil]

/-- The entry of a block the map has. -/
theorem getElem?_built (h : buildFromColumn {blockRows} t values nulls = .ok zm) {b : Nat}
    (hb : b < blocksFor blockRows values.length) :
    zm.entries[b]? = some (ZoneMapEntry.summary {} t (block blockRows b (flagged values nulls))) := by
  rw [eq_of_buildFromColumn ht hnulls h, getElem?_map_range hb]

theorem length_built (h : buildFromColumn {blockRows} t values nulls = .ok zm) :
    zm.entries.length = blocksFor blockRows values.length := by
  rw [eq_of_buildFromColumn ht hnulls h, List.length_map, List.length_range]

/-- A block of a fresh map is scanned exactly when the map has no such block, the block has
no valid row, or its valid values reach the constant. -/
theorem shouldScanBlock_flagged (h : buildFromColumn {blockRows} t values nulls = .ok zm) (b : Nat) (op : CompareOp)
    (v : Native t) :
    shouldScanBlock zm b t op.predicateType v = true ↔
      blocksFor blockRows values.length ≤ b ∨ validValues (block blockRows b (flagged values nulls)) = [] ∨
        (block blockRows b values).length % 2 ^ 32 ≠ 0 ∧
          Reaches op ((validValues (block blockRows b (flagged values nulls))).map BitVec.toInt) v.toInt := by
  rw [shouldScanBlock]
  rcases Nat.lt_or_ge b (blocksFor blockRows values.length) with hb | hb
  · have hscan : ∀ e : ZoneMapEntry, shouldScan e t op.predicateType v = e.canMatch t op.predicateType v := by
      intro e
      cases op <;> rfl
    have hlen : (block blockRows b (flagged values nulls)).length = (block blockRows b values).length := by
      rw [block_flagged, length_flagged (covers_block hnulls _ _)]
    rw [getElem?_built ht hnulls h hb, or_iff_right (not_le.mpr hb)]
    simp only [ht, Bool.true_or, if_true, hscan]
    by_cases hvalid : validValues (block blockRows b (flagged values nulls)) = []
    · exact iff_of_true (ZoneMapEntry.canMatch_summary_null hvalid op v) (.inl hvalid)
    · rw [ZoneMapEntry.canMatch_summary ht {} hvalid, or_iff_right hvalid, hlen]
  · rw [List.getElem?_eq_none ((length_built ht hnulls h).trans_le hb)]
    exact iff_of_true rfl (.inl hb)

end ZoneMap

/-! ### Exactness -/

namespace ZoneMap
variable {t : DataType}

theorem length_block_le {α : Type} (blockRows b : Nat) (rows : List α) :
    (block blockRows b rows).length ≤ blockRows := by
  rw [block, List.length_take]
  exact Nat.min_le_left _ _

/-- As long as the sum does not wrap, there is an entry for every block of rows. -/
theorem blocksFor_eq {blockRows count : Nat} (h : count + blockRows ≤ 2 ^ 64) :
    blocksFor blockRows count = (count + blockRows - 1) / blockRows := by
  rw [blocksFor, Nat.mod_eq_of_lt (by omega)]

/-- The valid values of block `b`. -/
def validIn (values : List (Native t)) (nulls : Option (List Bool)) (blockRows b : Nat) : List (Native t) :=
  validValues (block blockRows b (flagged values nulls))

/-- What a map says of a column, block by block: the blocks cover the column, the bounds are
the least and the greatest valid value, and no block with a matching valid row is skipped. -/
structure Exact (zm : ZoneMap) (values : List (Native t)) (nulls : Option (List Bool)) (blockRows : Nat) : Prop where
  covers : values.length + blockRows ≤ 2 ^ 64 → zm.entries.length = (values.length + blockRows - 1) / blockRows
  bounds : ∀ b e, zm.entries[b]? = some e → validIn values nulls blockRows b ≠ [] →
    IsLeast {k | k ∈ (validIn values nulls blockRows b).map BitVec.toInt} e.minInt.toInt ∧
      IsGreatest {k | k ∈ (validIn values nulls blockRows b).map BitVec.toInt} e.maxInt.toInt
  sound : ∀ (b : Nat) (op : CompareOp) (v : Native t),
    (∃ x ∈ validIn values nulls blockRows b, op.holds x.toInt v.toInt = true) →
      zm.shouldScanBlock b t op.predicateType v = true

/-- **Building a fresh map with blocks of fewer than 2^32 rows makes it exact.** -/
theorem zoneMap_exact (ht : t.isInteger = true) {values : List (Native t)} {nulls : Option (List Bool)}
    (hnulls : Covers nulls values) {blockRows : Nat} (hpos : 0 < blockRows) (hblock : blockRows < 2 ^ 32) :
    ∃ zm, buildFromColumn {blockRows} t values nulls = .ok zm ∧ zm.Exact values nulls blockRows := by
  have hbuilt := buildFromColumn_eq ht {blockRows} hpos hnulls
  refine ⟨_, hbuilt, ⟨fun hsize => ?_, fun b e he hvalid => ?_, fun b op v h => ?_⟩⟩
  · rw [length_built ht hnulls hbuilt, blocksFor_eq hsize]
  · have hb : b < blocksFor blockRows values.length := by
      rw [← length_built ht hnulls hbuilt]
      exact (List.getElem?_eq_some_iff.mp he).1
    rw [getElem?_built ht hnulls hbuilt hb] at he
    cases he
    exact ZoneMapEntry.summary_bounds ht {} hvalid
  · obtain ⟨x, hx, hholds⟩ := h
    rw [shouldScanBlock_flagged ht hnulls hbuilt]
    refine .inr (.inr ⟨?_, .inl ⟨_, List.mem_map_of_mem hx, hholds⟩⟩)
    -- A block with a row has at least one and fewer than 2^32.
    have hle := length_block_le blockRows b values
    have hrows : (block blockRows b values).length ≠ 0 := by
      rw [← length_flagged (covers_block hnulls blockRows b), ← block_flagged]
      intro hzero
      rw [validIn, List.length_eq_zero_iff.mp hzero] at hx
      cases hx
    omega

theorem zoneMap_exact_int64 :
    ∃ zm, buildFromColumn {blockRows := 2} .int64 [4, -7, 9] (some [true, false, false]) = .ok zm ∧
      zm.Exact (t := .int64) [4, -7, 9] (some [true, false, false]) 2 :=
  zoneMap_exact (t := .int64) rfl (fun flags h => by cases h; exact Nat.le_refl 3) (by decide) (by decide)

end ZoneMap

/-! ### The comparisons of a chain -/

/-- Some value between the bounds of the block compares so with the constant. -/
def Admits (op : Comparison) (block : List Int) (v : Int) : Prop :=
  match op with
  | .eq => (∃ x ∈ block, x ≤ v) ∧ ∃ x ∈ block, v ≤ x
  | .ne => ∃ x ∈ block, x ≠ v
  | .lt => ∃ x ∈ block, x < v
  | .gt => ∃ x ∈ block, v < x

instance (op : Comparison) (block : List Int) (v : Int) : Decidable (Admits op block v) :=
  match op with
  | .eq => inferInstanceAs (Decidable ((∃ x ∈ block, x ≤ v) ∧ ∃ x ∈ block, v ≤ x))
  | .ne => inferInstanceAs (Decidable (∃ x ∈ block, x ≠ v))
  | .lt => inferInstanceAs (Decidable (∃ x ∈ block, x < v))
  | .gt => inferInstanceAs (Decidable (∃ x ∈ block, v < x))

/-- A block with a matching row admits the constant. -/
theorem admits_of_holds {op : Comparison} {block : List Int} {x v : Int} (hx : x ∈ block)
    (h : op.holds x v = true) : Admits op block v := by
  cases op <;> simp only [Comparison.holds, decide_eq_true_eq] at h
  · exact ⟨⟨x, hx, h.le⟩, ⟨x, hx, h.ge⟩⟩
  · exact ⟨x, hx, h⟩
  · exact ⟨x, hx, h⟩
  · exact ⟨x, hx, h⟩

/-- A comparison of a chain as one of the six. -/
def Predicates.Comparison.compareOp : Comparison → CompareOp
  | .eq => .eq
  | .ne => .ne
  | .lt => .lt
  | .gt => .gt

theorem predicateType_compareOp (op : Comparison) : op.compareOp.predicateType = op.predicateType := by
  cases op <;> rfl

/-- What a block admits is what it reaches. -/
theorem admits_iff_reaches (op : Comparison) (block : List Int) (v : Int) :
    Admits op block v ↔ Reaches op.compareOp block v := by
  cases op with
  | eq =>
    constructor
    · exact fun h => .inr ⟨rfl, h⟩
    · intro h
      rcases h with ⟨x, hx, heq⟩ | ⟨-, h⟩
      · exact ⟨⟨x, hx, (of_decide_eq_true heq).le⟩, x, hx, (of_decide_eq_true heq).ge⟩
      · exact h
  | _ => simp [Admits, Reaches, Comparison.compareOp, CompareOp.holds]

namespace ZoneMapEntry

section Integers
variable {t : DataType} (ht : t.isInteger = true)
include ht

/-- The entry of a nonempty block without nulls. -/
theorem update_block (x : Native t) (rest : List (Native t)) :
    update {} t (x :: rest) none = .ok
      { minInt := (Native.bounds t x rest).1.toInt64 t, maxInt := (Native.bounds t x rest).2.toInt64 t
        rowCount := BitVec.ofNat 32 (rest.length + 1), hasMinMax := true } := by
  have hlen := length_flagged (covers_none (x :: rest))
  rw [update_eq ht {} (List.cons_ne_nil x rest) (covers_none _), summary, hlen]
  rw [flagged_none, validValues_unflagged, lateNulls_unflagged]
  rfl

/-- The bounds of a block, widened, match the constants the block admits. -/
theorem boundsMatch_block (x : Native t) (rest : List (Native t)) (op : Comparison) (v : Int64Bits) :
    boundsMatch (· == ·) BitVec.slt ((Native.bounds t x rest).1.toInt64 t) ((Native.bounds t x rest).2.toInt64 t)
        v op.predicateType = true ↔ Admits op ((x :: rest).map BitVec.toInt) v.toInt := by
  obtain ⟨hlo, hhi, hall⟩ := Native.bounds_spec ht x rest
  rw [← predicateType_compareOp, boundsMatch_iff, Native.toInt_toInt64 ht, Native.toInt_toInt64 ht, admits_iff_reaches]
  refine within_iff_reaches (List.mem_map_of_mem hlo) (List.mem_map_of_mem hhi) (fun y hy => ?_) _ _
  obtain ⟨z, hz, rfl⟩ := List.mem_map.mp hy
  exact hall z hz

end Integers

end ZoneMapEntry

namespace ZoneMap

theorem buildFromColumn_fresh {t : DataType} {values : List (Native t)} {blockRows : Nat} {zm : ZoneMap}
    (h : buildFromColumn {blockRows} t values none = .ok zm) :
    List.Forall₂ (fun b e => ZoneMapEntry.update {} t (block blockRows b values) none = .ok e)
      (List.range (blocksFor blockRows values.length)) zm.entries := by
  unfold buildFromColumn at h
  split at h
  · cases h
  · obtain ⟨entries, hentries, h⟩ := bind_eq_ok.mp h
    cases h
    exact mapM_eq_ok.mp hentries

/-- **A block of a fresh map over a column without nulls is scanned exactly when the
map has no such block or the values of the block admit the constant.** -/
theorem shouldScanBlock_built {t : DataType} (ht : t.isInteger = true) {values : List (Native t)} {blockRows : Nat}
    {zm : ZoneMap} (h : buildFromColumn {blockRows} t values none = .ok zm) (b : Nat) (op : Comparison)
    (v : Native t) :
    shouldScanBlock zm b t op.predicateType v = true ↔
      blocksFor blockRows values.length ≤ b ∨
        (block blockRows b values).length % 2 ^ 32 ≠ 0 ∧
          Admits op ((block blockRows b values).map BitVec.toInt) v.toInt := by
  rw [← predicateType_compareOp, shouldScanBlock_flagged ht (covers_none _) h, block_flagged, Option.map_none,
    flagged_none, validValues_unflagged, admits_iff_reaches]
  rcases Nat.lt_or_ge b (blocksFor blockRows values.length) with hb | hb
  · rw [or_iff_right (not_le.mpr hb), or_iff_right (block_ne_nil hb), or_iff_right (not_le.mpr hb)]
  · exact iff_of_true (.inl hb) (.inl hb)

end ZoneMap

end ColumnarStore
