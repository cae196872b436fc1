import ColumnarStore.Scanner.Unpruned
import ColumnarStore.ZoneMap.Bounds

/-! When zone maps may skip blocks.

The check looks at the first leaf only, on the zone map's block that has the number of
the scan's block. `sameScans_iff` says what that costs: pruning is transparent exactly
when no row that satisfies the predicate lies in a skipped block. With zone maps cut
into the scan's own blocks this depends on the connectives of the chain
(`zonePruning_chain_iff`); with a single leaf it depends on how the two partitions
of the rows meet (`zonePruning_leaf_iff`). -/
namespace ColumnarStore
open Foundation Blocks Predicates Scanner

namespace Scanner.ScanContext

def zoneMapsOnly (blockSize : Nat) : ScanContext :=
  {blockSize, enableZoneMapPruning := true, enableBloomFilter := false}

def bloomFiltersOnly (blockSize : Nat) : ScanContext :=
  {blockSize, enableZoneMapPruning := false, enableBloomFilter := true}

end Scanner.ScanContext

namespace IntactSegment
variable {s : IntactSegment}

/-! ### Two scans -/

/-- Both scans return, and deliver the same rows. -/
def SameScans (build : Build) (s : IntactSegment) (predicate : Predicate) (a b : ScanContext) : Prop :=
  ∃ statsA as statsB bs,
    scanSegment build s.segment a predicate = .ok (statsA, as) ∧
    scanSegment build s.segment b predicate = .ok (statsB, bs) ∧ SameRows as bs

/-- Scans that deliver different numbers of rows are not the same. -/
theorem not_sameScans {build : Build} {predicate : Predicate} {a b : ScanContext} {m n : Nat}
    (ha : (scanSegment build s.segment a predicate).map (fun scan => deliveredRows scan.2) = .ok m)
    (hb : (scanSegment build s.segment b predicate).map (fun scan => deliveredRows scan.2) = .ok n)
    (hne : m ≠ n) : ¬ SameScans build s predicate a b := by
  intro h
  obtain ⟨statsA, as, statsB, bs, hscanA, hscanB, hrows, -⟩ := h
  rw [hscanA] at ha
  rw [hscanB] at hb
  exact hne ((Except.ok.inj ha).symm.trans (hrows.trans (Except.ok.inj hb)))

theorem ne_nil_of_column {c : Nat} {col : Column} (hcol : s.columns[c]? = some col) : s.columns ≠ [] := by
  have hlt := (List.getElem?_eq_some_iff.mp hcol).1
  exact List.ne_nil_of_length_pos (by omega)

/-- A scan with checks and one without are the same exactly when every row kept lies in
a block the checks allow. -/
theorem sameScans_iff {build : Build} {predicate : Predicate} (on : ScanContext) {zone : Nat → Bool}
    {bloom : Bool} {keep : Nat → Bool} (hpos : 0 < on.blockSize) (hsize : on.blockSize ≤ kScanBlockSize)
    (hcolumns : s.columns ≠ []) (hchecks : Checks (s.scanner on) predicate zone bloom)
    (hselects : ∀ context, Selects build s (s.scanner context) predicate keep) :
    SameScans build s predicate on (.unpruned on.blockSize) ↔
      ∀ r, r < s.numRows → keep r = true → allowed on.blockSize zone bloom r = true := by
  obtain ⟨as, hon, hdelivers⟩ := scanSegment_spec hpos hsize hcolumns hchecks (hselects on)
  obtain ⟨statsB, bs, hoff, hall, -⟩ := scan_unpruned (.unpruned on.blockSize) hpos hsize rfl rfl
    hcolumns (hselects _)
  have hfilter : (List.range s.numRows).filter (fun r => allowed on.blockSize zone bloom r && keep r) =
      ((List.range s.numRows).filter keep).filter (allowed on.blockSize zone bloom) := by
    rw [List.filter_filter]
  rw [hfilter] at hdelivers
  have hrows : SameRows as bs ↔
      ∀ r, r < s.numRows → keep r = true → allowed on.blockSize zone bloom r = true := by
    rw [hdelivers.sameRows_filter hall]
    simp only [List.mem_filter, List.mem_range, and_imp]
  rw [← hrows]
  constructor
  · intro h'
    obtain ⟨statsA, as', statsB', bs', hon', hoff', hsameRows⟩ := h'
    cases hon.symm.trans hon'
    cases hoff.symm.trans hoff'
    exact hsameRows
  · exact fun h => ⟨_, as, _, bs, hon, hoff, h⟩

/-- Zone maps on and off, filters off. -/
def ZonePruningTransparent (build : Build) (s : IntactSegment) (blockSize : Nat) (predicate : Predicate) :
    Prop := SameScans build s predicate (.zoneMapsOnly blockSize) (.unpruned blockSize)

theorem zonePruningTransparent_iff {build : Build} {blockSize : Nat} (hpos : 1 ≤ blockSize)
    (hsize : blockSize ≤ kScanBlockSize) {chain : Chain} {col : Column}
    (hcol : s.columns[chain.head.column]? = some col) {keep : Nat → Bool}
    (hselects : ∀ context, Selects build s (s.scanner context) chain.predicate keep) :
    ZonePruningTransparent build s blockSize chain.predicate ↔
      ∀ r, r < s.numRows → keep r = true → s.zoneMapKeeps chain col (r / blockSize) = true := by
  have hchecks : Checks (s.scanner (.zoneMapsOnly blockSize)) chain.predicate
      (s.zoneMapKeeps chain col) true := by
    refine ⟨fun block => ?_, ?_⟩
    · rw [zoneMapAllows_chain hcol]
      rfl
    · rw [bloomFilterAllows_chain hcol]
      rfl
  have h := sameScans_iff (.zoneMapsOnly blockSize) hpos hsize (ne_nil_of_column hcol) hchecks hselects
  simp only [allowed, Bool.and_true] at h
  exact h

/-! ### The zone map of the first leaf's column -/

/-- The zone map of the column, as it is read, has the blocks that building it over the
column in blocks of `blockRows` rows gives. -/
def ZoneMapped (s : IntactSegment) (c blockRows : Nat) (col : Column) : Prop :=
  ∃ zm, ZoneMap.buildFromColumn {blockRows} col.type col.vec.data none = .ok zm ∧
    (s.zoneMaps.getD c {}).entries = zm.entries

section Mapped
variable {chain : Chain} {col : Column}

theorem zoneMapKeeps_unmapped (hnone : (s.zoneMaps.getD chain.head.column {}).entries = []) (block : Nat) :
    s.zoneMapKeeps chain col block = true := by
  rw [zoneMapKeeps, ZoneMap.shouldScanBlock, hnone, List.getElem?_nil, Bool.or_true]

variable (hcol : s.columns[chain.head.column]? = some col) (hint : col.type.isInteger = true)
include hcol

/-- The map has a block for every row when its blocks are those of a scan. -/
theorem entries_ne_nil {blockRows : Nat} (hmapped : s.ZoneMapped chain.head.column blockRows col)
    (hpos : 0 < blockRows) (hsize : blockRows ≤ kScanBlockSize) {r : Nat} (hr : r < s.numRows) :
    r / blockRows < ZoneMap.blocksFor blockRows s.numRows ∧
      (s.zoneMaps.getD chain.head.column {}).entries ≠ [] := by
  have hsmall : kScanBlockSize = 8192 := rfl
  have hrows := numRows_lt hcol
  have hblock : r / blockRows < ZoneMap.blocksFor blockRows s.numRows := by
    rw [ZoneMap.blocksFor, Nat.mod_eq_of_lt (by omega), Nat.lt_iff_add_one_le,
      ← Nat.add_div_right r hpos]
    exact Nat.div_le_div_right (by omega)
  obtain ⟨zm, hbuild, hentries⟩ := hmapped
  have hlen := (ZoneMap.buildFromColumn_fresh hbuild).length_eq
  rw [List.length_range, length_data hcol] at hlen
  refine ⟨hblock, ?_⟩
  rw [hentries, ← List.length_pos_iff_ne_nil, ← hlen]
  exact Nat.zero_lt_of_lt hblock

include hint

/-- A block is kept when the map has no block of that number, or the values of that
block of the map admit the constant. -/
theorem zoneMapKeeps_mapped {blockRows : Nat} (hmapped : s.ZoneMapped chain.head.column blockRows col)
    (block : Nat) :
    s.zoneMapKeeps chain col block = true ↔
      ZoneMap.blocksFor blockRows s.numRows ≤ block ∨
        Admits chain.head.op ((ZoneMap.block blockRows block col.vec.data).map BitVec.toInt)
          (chain.head.cut col.type).toInt := by
  obtain ⟨zm, hbuild, hentries⟩ := hmapped
  have hlen : col.vec.data.length = s.numRows := length_data hcol
  have hread : (s.zoneMaps.getD chain.head.column {}).shouldScanBlock block col.type
      chain.head.op.predicateType (chain.head.cut col.type) =
        zm.shouldScanBlock block col.type chain.head.op.predicateType (chain.head.cut col.type) := by
    rw [ZoneMap.shouldScanBlock, ZoneMap.shouldScanBlock, hentries]
  rw [zoneMapKeeps, hint, Bool.not_true, Bool.false_or, hread, ZoneMap.shouldScanBlock_built hint hbuild,
    hlen]
  refine or_congr_right' fun hblock => and_iff_right ?_
  have hne : ZoneMap.block blockRows block col.vec.data ≠ [] :=
    ZoneMap.block_ne_nil (hlen.symm ▸ not_le.mp hblock)
  have hpos := List.length_pos_iff_ne_nil.mpr hne
  have hshort : (ZoneMap.block blockRows block col.vec.data).length ≤ s.numRows := by
    rw [ZoneMap.block, List.length_take, List.length_drop, hlen]
    omega
  rw [Nat.mod_eq_of_lt (hshort.trans_lt (numRows_lt hcol))]
  exact hpos.ne'

end Mapped

/-! ### Chains -/

/-- **With zone maps cut into the scan's blocks, pruning by a chain of several leaves is
transparent exactly when every row that satisfies the chain lies in a block whose
values of the first leaf's column admit the first leaf's constant.** -/
theorem zonePruning_chain_iff (build : Build) (s : IntactSegment)
    (hint : ∀ col ∈ s.columns, col.type.isInteger = true) (blockSize : Nat) (hpos : 1 ≤ blockSize)
    (hsize : blockSize ≤ kScanBlockSize)
    (hmaps : ∀ c col, s.columns[c]? = some col →
      (s.zoneMaps.getD c {}).entries = [] ∨ s.ZoneMapped c blockSize col)
    (chain : Chain) (hcolumns : s.HasColumns chain) (hmany : chain.tail ≠ []) (col : Column)
    (hcol : s.columns[chain.head.column]? = some col) :
    ZonePruningTransparent build s blockSize chain.predicate ↔
      ∀ r, r < s.numRows → chain.eval (s.row r) = true →
        (s.zoneMaps.getD chain.head.column {}).entries = [] ∨
          Admits chain.head.op ((ZoneMap.block blockSize (r / blockSize) col.vec.data).map BitVec.toInt)
            (chain.head.cut col.type).toInt := by
  have hint := hint col (List.mem_of_getElem? hcol)
  rw [zonePruningTransparent_iff hpos hsize hcol fun context => selects_chain build hcolumns hmany]
  refine forall_congr' fun r => forall₂_congr fun hr hmatch => ?_
  rcases hmaps _ col hcol with hnone | hmapped
  · exact iff_of_true (zoneMapKeeps_unmapped hnone _) (.inl hnone)
  · obtain ⟨hblock, hne⟩ := entries_ne_nil hcol hmapped hpos hsize hr
    rw [zoneMapKeeps_mapped hcol hint hmapped, or_iff_right (not_le.mpr hblock), or_iff_right hne]

/-- Columns 5, 6 and 7, 8 with a zone map over the first. -/
def mappedCalls : List WriterCall :=
  [.addColumn .int32 [5, 6] [false, false] .plain, .addColumn .int32 [7, 8] [false, false] .plain,
   .addZoneMap 0 ((ZoneMap.buildFromColumn {blockRows := 2} .int32 [5, 6] none).toOption.getD {})]

def mapped : IntactSegment where
  segment := (writeSegment mappedCalls).toOption.getD ⟨{}, []⟩
  columns := [.ofValues .int32 [5, 6], .ofValues .int32 [7, 8]]
  zoneMaps :=
    [{entries := [{minInt := 5, maxInt := 6, rowCount := 2, hasMinMax := true}], blockRows := 2}, {}]
  bloomFilters := [.empty, .empty]
  columns_read := by decide +kernel
  zoneMaps_read := by decide +kernel
  bloomFilters_read := rfl
  numeric := by decide
  full := by decide +kernel

/-- Equal to 5 in the first column and greater than 6 in the second. -/
theorem mapped_and_transparent :
    ZonePruningTransparent .scalar mapped 2
      (Chain.predicate {head := ⟨.eq, .int32, 0, 5⟩, tail := [(.and, ⟨.gt, .int32, 1, 6⟩, 0)]}) := by
  refine (zonePruning_chain_iff .scalar mapped (by decide) 2 (by decide) (by decide) ?_ _ (by decide)
    (by decide) (.ofValues .int32 [5, 6]) rfl).mpr (by decide +kernel)
  intro c col hcol
  match c with
  | 0 =>
    cases hcol
    exact .inr ⟨_, rfl, by decide +kernel⟩
  | 1 => exact .inl rfl
  | c + 2 => cases hcol

/-- Equal to 1 in the first column or to 7 in the second: the zone map of the first
column excludes 1, and the row that holds 7 is lost. -/
theorem mapped_or_not_transparent :
    ¬ ZonePruningTransparent .scalar mapped 2
      (Chain.predicate {head := ⟨.eq, .int32, 0, 1⟩, tail := [(.or, ⟨.eq, .int32, 1, 7⟩, 0)]}) :=
  not_sameScans (m := 0) (n := 1) (by decide +kernel) (by decide +kernel) (by decide)

/-! ### Single leaves -/

/-- **Pruning by a single leaf on a 32-bit column is transparent exactly when, for every
row that satisfies it, the zone map has no block with the number of the row's scan
block, or the values of that block of the zone map admit the constant.** -/
theorem zonePruning_leaf_iff (build : Build) (s : IntactSegment) (c : Nat) (vec : ColumnVector .int32)
    (hcol : s.columns[c]? = some ⟨.int32, vec⟩) (blockRows : Nat)
    (hmapped : s.ZoneMapped c blockRows ⟨.int32, vec⟩) (blockSize : Nat) (hpos : 1 ≤ blockSize)
    (hsize : blockSize ≤ kScanBlockSize) (op : Comparison) (v : Native .int32) :
    ZonePruningTransparent build s blockSize (Chain.predicate {head := ⟨op, .int32, c, v⟩}) ↔
      ∀ r, r < s.numRows → op.holds (vec.data.getD r 0).toInt v.toInt = true →
        ZoneMap.blocksFor blockRows s.numRows ≤ r / blockSize ∨
          Admits op ((ZoneMap.block blockRows (r / blockSize) vec.data).map BitVec.toInt) v.toInt := by
  have hcut : Leaf.cut ⟨op, .int32, c, v⟩ .int32 = v := Native.setWidth_toInt64 rfl v
  have hrow : ∀ r, s.row r c = (vec.data.getD r 0).toInt := by
    intro r
    show (s.cell r c).toInt = _
    rw [cell_eq hcol]
    exact Native.toInt_toInt64 rfl _
  rw [zonePruningTransparent_iff hpos hsize hcol fun context => selects_leaf hcol rfl build rfl rfl]
  refine forall_congr' fun r => forall_congr' fun hr => ?_
  rw [zoneMapKeeps_mapped hcol rfl hmapped]
  show (op.holds (s.row r c) (Leaf.cut ⟨op, .int32, c, v⟩ .int32).toInt = true → _) ↔ _
  rw [hrow, hcut]

/-- Four nines and four ones with a zone map in blocks of four rows. -/
def halvesCalls : List WriterCall :=
  [.addColumn .int32 [9, 9, 9, 9, 1, 1, 1, 1] (List.replicate 8 false) .plain,
   .addZoneMap 0 ((ZoneMap.buildFromColumn {blockRows := 4} .int32 [9, 9, 9, 9, 1, 1, 1, 1] none).toOption.getD {})]

def halves : IntactSegment where
  segment := (writeSegment halvesCalls).toOption.getD ⟨{}, []⟩
  columns := [.ofValues .int32 [9, 9, 9, 9, 1, 1, 1, 1]]
  zoneMaps :=
    [{entries := [{minInt := 9, maxInt := 9, rowCount := 4, hasMinMax := true},
        {minInt := 1, maxInt := 1, rowCount := 4, hasMinMax := true}], blockRows := 4}]
  bloomFilters := [.empty]
  columns_read := by decide +kernel
  zoneMaps_read := by decide +kernel
  bloomFilters_read := rfl
  numeric := by decide
  full := by decide +kernel

theorem halves_aligned_transparent :
    ZonePruningTransparent .scalar halves 4 (Chain.predicate {head := ⟨.eq, .int32, 0, 9⟩}) :=
  (zonePruning_leaf_iff .scalar halves 0 _ rfl 4 ⟨_, rfl, by decide +kernel⟩ 4 (by decide) (by decide) .eq
    9).mpr (by decide +kernel)

/-- In scan blocks of two rows the second is tested against the ones, and two of the
four nines are lost. -/
theorem halves_misaligned_not_transparent :
    ¬ ZonePruningTransparent .scalar halves 2 (Chain.predicate {head := ⟨.eq, .int32, 0, 9⟩}) :=
  not_sameScans (m := 2) (n := 4) (by decide +kernel) (by decide +kernel) (by decide)

end IntactSegment

end ColumnarStore
