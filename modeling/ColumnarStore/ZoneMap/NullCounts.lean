import ColumnarStore.ZoneMap.Bounds

/-! The null counts of a zone map.

Only the nulls behind the first valid row are counted, so a count is exact when a block
begins with a valid row or has none. The count starts from the entry's own: building a map
again adds the same nulls once more, while every other field is assigned anew. -/
namespace ColumnarStore
open Foundation
variable {t : DataType}

/-! ### Counted nulls -/

section Rows
variable {α : Type} {rows : List (α × Bool)}

/-- Without a valid row all are null, and the pass counts none. -/
theorem nullRows_of_no_valid (h : validValues rows = []) : nullRows rows = rows.length ∧ lateNulls rows = 0 := by
  rw [validValues_eq_nil_iff] at h
  refine ⟨List.countP_eq_length.mpr h, ?_⟩
  rw [lateNulls, List.dropWhile_eq_nil_iff.mpr h]
  rfl

/-- Behind a valid first row every null is counted. -/
theorem lateNulls_of_valid (x : α) (rest : List (α × Bool)) :
    lateNulls ((x, false) :: rest) = nullRows ((x, false) :: rest) := rfl

/-- A null first row is not, unless no row is valid. -/
theorem lateNulls_of_null (x : α) (rest : List (α × Bool)) :
    lateNulls ((x, true) :: rest) < nullRows ((x, true) :: rest) := by
  have hcount : nullRows ((x, true) :: rest) = nullRows rest + 1 := List.countP_cons_of_pos rfl
  have hlate : (rest.dropWhile (·.2)).countP (·.2) ≤ rest.countP (·.2) := (List.dropWhile_suffix _).sublist.countP_le
  rw [hcount]
  exact Nat.lt_succ_of_le hlate

/-- The rows whose nulls an update counts right: only nulls, and a 32-bit number of them,
or a valid row first, and more rows than nulls in 32 bits. -/
def Countable (rows : List (α × Bool)) : Prop :=
  validValues rows = [] ∧ rows.length < 2 ^ 32 ∨
    (∃ x rest, rows = (x, false) :: rest) ∧ nullRows rows < rows.length % 2 ^ 32

end Rows

/-! ### The statistics of a map -/

/-- An entry against the rows of its block. -/
structure ZoneMapEntry.CountsNulls (e : ZoneMapEntry) (rows : List (Native t × Bool)) : Prop where
  nullCount : e.nullCount.toNat = nullRows rows
  hasNulls : e.hasNulls = true ↔ 0 < nullRows rows
  scansNull : ∀ v : Native t, 0 < nullRows rows → ZoneMap.shouldScan e t .isNull v = true
  scansValid : ∀ v : Native t, validValues rows ≠ [] → ZoneMap.shouldScan e t .isNotNull v = true

/-- A block of nulls only is counted by its rows. -/
theorem ZoneMapEntry.countsNulls_of_no_valid {rows : List (Native t × Bool)} (hrows : rows ≠ [])
    (hvalid : validValues rows = []) : (summary {} t rows).CountsNulls rows ↔ rows.length < 2 ^ 32 := by
  have hlen := List.length_pos_iff.mpr hrows
  obtain ⟨hall, -⟩ := nullRows_of_no_valid hvalid
  have hsummary : summary {} t rows =
      { nullCount := BitVec.ofNat 32 rows.length, rowCount := BitVec.ofNat 32 rows.length, hasNulls := true } := by
    simp only [summary, hvalid]
  rw [hsummary]
  constructor
  · intro h
    have hcount := h.nullCount
    rw [BitVec.toNat_ofNat, hall] at hcount
    omega
  · intro hsmall
    refine ⟨?_, ?_, fun _ _ => rfl, fun _ hne => absurd hvalid hne⟩
    · rw [hall]
      exact toNat_ofNat_of_lt hsmall
    · rw [hall]
      exact iff_of_true rfl hlen

/-- In a block with a valid row the nulls ahead of it are missed. -/
theorem ZoneMapEntry.countsNulls_of_valid {rows : List (Native t × Bool)} (hvalid : validValues rows ≠ []) :
    (summary {} t rows).CountsNulls rows ↔
      (∃ x rest, rows = (x, false) :: rest) ∧ nullRows rows < rows.length % 2 ^ 32 := by
  obtain ⟨y, ys, hvalues⟩ := List.exists_cons_of_ne_nil hvalid
  have hnull : (summary {} t rows).nullCount = BitVec.ofNat 32 (lateNulls rows) := by
    simp only [summary, hvalues, BitVec.ofNat_eq_ofNat, BitVec.zero_add]
  have hrow : (summary {} t rows).rowCount = BitVec.ofNat 32 rows.length := by
    simp only [summary, hvalues]
  have hhas : (summary {} t rows).hasNulls = decide (0 < (summary {} t rows).nullCount) := by
    simp only [summary, hvalues]
  constructor
  · intro h
    have hcount := h.nullCount
    have hscan : (summary {} t rows).nullCount < (summary {} t rows).rowCount :=
      of_decide_eq_true (h.scansValid 0 hvalid)
    rw [hnull, BitVec.toNat_ofNat] at hcount
    rw [BitVec.lt_def, hnull, hrow, BitVec.toNat_ofNat, BitVec.toNat_ofNat, hcount] at hscan
    refine ⟨?_, hscan⟩
    cases rows with
    | nil => cases hvalues
    | cons row rest =>
      obtain ⟨x, flag⟩ := row
      cases flag with
      | false => exact ⟨x, rest, rfl⟩
      | true =>
        have hlate := lateNulls_of_null x rest
        have hmod := Nat.mod_le (lateNulls ((x, true) :: rest)) (2 ^ 32)
        omega
  · intro h
    obtain ⟨⟨x, rest, rfl⟩, hfewer⟩ := h
    have hsmall := hfewer.trans (Nat.mod_lt _ (by decide))
    have hnat : (summary {} t ((x, false) :: rest)).nullCount.toNat = nullRows ((x, false) :: rest) := by
      rw [hnull, lateNulls_of_valid, toNat_ofNat_of_lt hsmall]
    have hpos : (summary {} t ((x, false) :: rest)).hasNulls = true ↔ 0 < nullRows ((x, false) :: rest) := by
      rw [hhas, decide_eq_true_eq, BitVec.lt_def, hnat]
      rfl
    refine ⟨hnat, hpos, fun _ => hpos.mpr, fun _ _ => decide_eq_true ?_⟩
    rw [BitVec.lt_def, hnat, hrow, BitVec.toNat_ofNat]
    exact hfewer

theorem ZoneMapEntry.countsNulls_summary_iff {rows : List (Native t × Bool)} (hrows : rows ≠ []) :
    (summary {} t rows).CountsNulls rows ↔ Countable rows := by
  by_cases hvalid : validValues rows = []
  · have hnull : ¬ ∃ x rest, rows = (x, false) :: rest := by
      rintro ⟨x, rest, rfl⟩
      cases hvalid
    rw [countsNulls_of_no_valid hrows hvalid, Countable, and_iff_right hvalid, or_iff_left fun h => hnull h.1]
  · rw [countsNulls_of_valid hvalid, Countable, or_iff_right fun h => hvalid h.1]

namespace ZoneMap

/-- What a map says of the nulls among the rows of block `b`. -/
structure CountsBlock (zm : ZoneMap) (b : Nat) (rows : List (Native t × Bool)) : Prop where
  entry : ∃ e, zm.entries[b]? = some e ∧ e.nullCount.toNat = nullRows rows ∧ (e.hasNulls = true ↔ 0 < nullRows rows)
  scansNull : ∀ v : Native t, 0 < nullRows rows → zm.shouldScanBlock b t .isNull v = true
  scansValid : ∀ v : Native t, validValues rows ≠ [] → zm.shouldScanBlock b t .isNotNull v = true

theorem countsBlock_iff (ht : t.isInteger = true) {zm : ZoneMap} {b : Nat} {e : ZoneMapEntry}
    (he : zm.entries[b]? = some e) {rows : List (Native t × Bool)} : zm.CountsBlock b rows ↔ e.CountsNulls rows := by
  have hscan : ∀ pred (v : Native t), zm.shouldScanBlock b t pred v = shouldScan e t pred v := by
    intro pred v
    rw [shouldScanBlock, he]
    simp only [ht, Bool.true_or, if_true]
  constructor
  · intro h
    obtain ⟨e', he', hcount, hhas⟩ := h.entry
    rw [he] at he'
    cases he'
    exact ⟨hcount, hhas, fun v hv => hscan _ v ▸ h.scansNull v hv, fun v hv => hscan _ v ▸ h.scansValid v hv⟩
  · intro h
    exact ⟨⟨e, he, h.nullCount, h.hasNulls⟩, fun v hv => (hscan _ v).trans (h.scansNull v hv),
      fun v hv => (hscan _ v).trans (h.scansValid v hv)⟩

/-- Every block of rows has an entry, and the entry counts the nulls of the block. -/
def CountsNulls (zm : ZoneMap) (rows : List (Native t × Bool)) (blockRows : Nat) : Prop :=
  ∀ b, block blockRows b rows ≠ [] → zm.CountsBlock b (block blockRows b rows)

theorem block_ne_nil_iff {α : Type} {blockRows b : Nat} (hpos : 0 < blockRows) {rows : List α} :
    block blockRows b rows ≠ [] ↔ b * blockRows < rows.length := by
  rw [← List.length_pos_iff_ne_nil, block, List.length_take, List.length_drop]
  omega

/-- The map has every block of rows when there is none or the sum does not wrap. -/
theorem covers_blocks_iff {blockRows count : Nat} (hpos : 0 < blockRows) (hrows : blockRows < 2 ^ 64) :
    (∀ b, b * blockRows < count → b < blocksFor blockRows count) ↔ count = 0 ∨ count + blockRows ≤ 2 ^ 64 := by
  constructor
  · intro h
    by_contra hnot
    obtain ⟨hcount, hsum⟩ := not_or.mp hnot
    -- The first block the map lacks still has rows.
    have hle : blocksFor blockRows count * blockRows ≤ (count + blockRows - 1) % 2 ^ 64 := Nat.div_mul_le_self _ _
    have hwrap : (count + blockRows - 1) % 2 ^ 64 < count := by omega
    exact (h _ (hle.trans_lt hwrap)).false
  · intro h b hb
    have hsum : count + blockRows ≤ 2 ^ 64 := h.resolve_left (Nat.ne_zero_of_lt hb)
    rw [blocksFor_eq hsum, ← Nat.succ_le_iff, Nat.le_div_iff_mul_le hpos, Nat.succ_mul]
    omega

section Built
variable (ht : t.isInteger = true) {values : List (Native t)} {nulls : Option (List Bool)}
  (hnulls : Covers nulls values) {blockRows : Nat} (hpos : 0 < blockRows)
include ht hnulls hpos

/-- **Building a fresh map counts the nulls of every block exactly when the sum of rows and
block size does not wrap and every block has countable nulls.** -/
theorem countsNulls_iff (hrows : blockRows < 2 ^ 64) :
    (∃ zm, buildFromColumn {blockRows} t values nulls = .ok zm ∧ zm.CountsNulls (flagged values nulls) blockRows) ↔
      (values.length = 0 ∨ values.length + blockRows ≤ 2 ^ 64) ∧
        ∀ b, block blockRows b (flagged values nulls) ≠ [] → Countable (block blockRows b (flagged values nulls)) := by
  have hbuilt := buildFromColumn_eq ht {blockRows} hpos hnulls
  have hnonempty : ∀ b, block blockRows b (flagged values nulls) ≠ [] ↔ b * blockRows < values.length := by
    intro b
    rw [block_ne_nil_iff hpos, length_flagged hnulls]
  rw [← covers_blocks_iff hpos hrows]
  constructor
  · intro h
    obtain ⟨zm, hzm, hcounts⟩ := h
    have hin : ∀ b, b * blockRows < values.length → b < blocksFor blockRows values.length := by
      intro b hb
      obtain ⟨e, he, -⟩ := (hcounts b ((hnonempty b).mpr hb)).entry
      rw [← length_built ht hnulls hzm]
      exact (List.getElem?_eq_some_iff.mp he).1
    refine ⟨hin, fun b hb => ?_⟩
    have hentry := getElem?_built ht hnulls hzm (hin b ((hnonempty b).mp hb))
    exact (ZoneMapEntry.countsNulls_summary_iff hb).mp ((countsBlock_iff ht hentry).mp (hcounts b hb))
  · intro h
    obtain ⟨hin, hcountable⟩ := h
    refine ⟨_, hbuilt, fun b hb => ?_⟩
    have hentry := getElem?_built ht hnulls hbuilt (hin b ((hnonempty b).mp hb))
    exact (countsBlock_iff ht hentry).mpr ((ZoneMapEntry.countsNulls_summary_iff hb).mpr (hcountable b hb))

end Built

theorem countsNulls_interior :
    (∃ zm, buildFromColumn {blockRows := 2} .int32 [3, 8, 5] (some [false, true, false]) = .ok zm ∧
        zm.CountsNulls (flagged ([3, 8, 5] : List (Native .int32)) (some [false, true, false])) 2) ↔
      (3 = 0 ∨ 3 + 2 ≤ 2 ^ 64) ∧
        ∀ b, block 2 b (flagged ([3, 8, 5] : List (Native .int32)) (some [false, true, false])) ≠ [] →
          Countable (block 2 b (flagged ([3, 8, 5] : List (Native .int32)) (some [false, true, false]))) :=
  countsNulls_iff (t := .int32) rfl (fun flags h => by cases h; exact Nat.le_refl 3) (by decide) (by decide)

/-- The null ahead of the 1 is not counted, and a scan for nulls skips its block. -/
theorem countsNulls_not_leading :
    ¬ (∃ zm, buildFromColumn {blockRows := 2} .int32 [7, 1] (some [true, false]) = .ok zm ∧
        zm.CountsNulls (flagged ([7, 1] : List (Native .int32)) (some [true, false])) 2) := by
  intro h
  obtain ⟨zm, hzm, hcounts⟩ := h
  cases hzm
  have hscan := (hcounts 0 (List.cons_ne_nil _ _)).scansNull (t := .int32) 0 (by decide)
  cases hscan

/-! ### Building again -/

end ZoneMap

/-- A second update by the same rows adds the nulls behind the first valid row again. -/
theorem ZoneMapEntry.summary_summary_iff (e : ZoneMapEntry) (rows : List (Native t × Bool)) :
    (e.summary t rows).summary t rows = e.summary t rows ↔ lateNulls rows % 2 ^ 32 = 0 := by
  cases hvalid : validValues rows with
  | nil =>
    rw [(nullRows_of_no_valid hvalid).2]
    refine iff_of_true ?_ rfl
    simp only [summary, hvalid]
  | cons x rest =>
    have hcount : ∀ e : ZoneMapEntry,
        (e.summary t rows).nullCount = e.nullCount + BitVec.ofNat 32 (lateNulls rows) := by
      intro e
      simp only [summary, hvalid]
    rw [← rowCount_eq_zero_iff]
    constructor
    · intro h
      have heq := congrArg nullCount h
      rw [hcount (e.summary t rows)] at heq
      exact left_eq_add.mp heq.symm
    · intro h
      simp only [summary, hvalid, h, add_zero]

namespace ZoneMap

/-- Building twice leaves the entries, and every answer, as building once does. -/
def RebuildsAlike (values : List (Native t)) (nulls : Option (List Bool)) (blockRows : Nat) : Prop :=
  ∃ once twice, buildFromColumn {blockRows} t values nulls = .ok once ∧
    once.buildFromColumn t values nulls = .ok twice ∧ twice.entries = once.entries ∧
    ∀ (b : Nat) (pred : PredicateType) (v : Native t),
      twice.shouldScanBlock b t pred v = once.shouldScanBlock b t pred v

/-- **Building a fresh map twice is building it once exactly when in no block nulls follow a
valid row, save a multiple of 2^32 of them.** -/
theorem rebuildsAlike_iff (ht : t.isInteger = true) {values : List (Native t)} {nulls : Option (List Bool)}
    (hnulls : Covers nulls values) {blockRows : Nat} (hpos : 0 < blockRows) :
    RebuildsAlike values nulls blockRows ↔
      ∀ b < blocksFor blockRows values.length, lateNulls (block blockRows b (flagged values nulls)) % 2 ^ 32 = 0 := by
  obtain ⟨once, honce⟩ : ∃ once, buildFromColumn {blockRows} t values nulls = .ok once :=
    ⟨_, buildFromColumn_eq ht _ hpos hnulls⟩
  have hmap := eq_of_buildFromColumn ht hnulls honce
  have hagain : ∃ twice, once.buildFromColumn t values nulls = .ok twice ∧ twice.blockRows = once.blockRows ∧
      (twice.entries = once.entries ↔ ∀ b < blocksFor blockRows values.length,
        lateNulls (block blockRows b (flagged values nulls)) % 2 ^ 32 = 0) := by
    have hrows : once.blockRows = blockRows := by rw [hmap]
    have hentries : once.entries = (List.range (blocksFor blockRows values.length)).map fun b =>
        ZoneMapEntry.summary {} t (block blockRows b (flagged values nulls)) := by rw [hmap]
    refine ⟨_, buildFromColumn_eq ht once (hrows ▸ hpos) hnulls, rfl, ?_⟩
    rw [hrows, hentries, List.map_inj_left]
    simp only [List.mem_range]
    refine forall₂_congr fun b hb => ?_
    rw [← ZoneMapEntry.summary_summary_iff {}, getD_map_range hb]
  obtain ⟨twice, htwice, hsize, hiff⟩ := hagain
  rw [← hiff]
  constructor
  · intro h
    obtain ⟨once', twice', honce', htwice', heq, -⟩ := h
    rw [honce] at honce'
    cases honce'
    rw [htwice] at htwice'
    cases htwice'
    exact heq
  · intro heq
    have hsame : twice = once := by
      cases twice
      cases once
      cases hsize
      cases heq
      rfl
    exact ⟨once, twice, honce, htwice, heq, fun b pred v => by rw [hsame]⟩

theorem rebuildsAlike_leading :
    RebuildsAlike (t := .int64) [6, 2, 9] (some [true, false, false]) 2 ↔
      ∀ b < blocksFor 2 3,
        lateNulls (block 2 b (flagged ([6, 2, 9] : List (Native .int64)) (some [true, false, false]))) % 2 ^ 32 = 0 :=
  rebuildsAlike_iff (t := .int64) rfl (fun flags h => by cases h; exact Nat.le_refl 3) (by decide)

/-- The null behind the 1 is counted twice, as if the block had no valid row. -/
theorem rebuildsAlike_not_late :
    ¬ RebuildsAlike (t := .int64) [1, 7] (some [false, true]) 2 := by
  intro h
  obtain ⟨once, twice, honce, htwice, heq, -⟩ := h
  cases honce
  cases htwice
  cases heq

end ZoneMap

end ColumnarStore
