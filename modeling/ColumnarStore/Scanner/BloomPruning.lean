import ColumnarStore.Scanner.ZonePruning

/-! When filters may skip blocks.

The filter check of a scan asks the filter of the first leaf's column for the constant
widened to 64 bits. A filter that does not find it skips every block. A column without
a filter reads as one with a filter nothing was added to (`bloomPruning_absent_iff`),
and a filter over 32-bit values has their patterns padded with zeros, which for a
negative value is another key than the widened one (`bloomPruning_int32_iff`). -/
namespace ColumnarStore
open Foundation Blocks Predicates Scanner

namespace IntactSegment
variable {s : IntactSegment}

/-- Filters on and off, zone maps off. -/
def BloomPruningTransparent (build : Build) (s : IntactSegment) (blockSize : Nat)
    (predicate : Predicate) : Prop :=
  SameScans build s predicate (.bloomFiltersOnly blockSize) (.unpruned blockSize)

/-- The filter of a column is what the reader returns for it. -/
theorem getBloomFilter {c : Nat} {col : Column} (hcol : s.columns[c]? = some col) :
    s.segment.getBloomFilter c = .ok (s.bloomFilters.getD c .empty) :=
  getD_of_mapM_range s.bloomFilters_read (lt_numColumns hcol) .empty

section Equality
variable {build : Build} {c : Nat} {t : DataType} {vec : ColumnVector t}
  (hcol : s.columns[c]? = some ⟨t, vec⟩) (ht : t.isInteger = true) {blockSize : Nat}
  (hpos : 1 ≤ blockSize) (hsize : blockSize ≤ kScanBlockSize) (v : Native t)
include hcol ht

theorem selects_equality (context : ScanContext) :
    Selects build s (s.scanner context) (Chain.predicate {head := ⟨.eq, t, c, v⟩})
      fun r => vec.data.getD r 0 = v := by
  have hcut : Leaf.cut ⟨.eq, t, c, v⟩ t = v := Native.setWidth_toInt64 ht v
  have hselects : Selects build s (s.scanner context) (Chain.predicate {head := ⟨.eq, t, c, v⟩}) _ :=
    selects_leaf hcol ht build rfl rfl
  have hkeep : (fun r => Comparison.eq.holds (s.row r c) (Leaf.cut ⟨.eq, t, c, v⟩ t).toInt) =
      fun r => decide (vec.data.getD r 0 = v) := by
    funext r
    have hrow : s.row r c = (vec.data.getD r 0).toInt := by
      show (s.cell r c).toInt = _
      rw [cell_eq hcol]
      exact Native.toInt_toInt64 ht _
    rw [hrow, hcut]
    simp only [Comparison.holds, BitVec.toInt_inj]
  exact hkeep ▸ hselects

include hpos hsize

/-- Pruning by an equality is transparent when the filter finds the constant or the
column does not have it. -/
theorem bloomPruningTransparent_iff {found : Bool}
    (hfound : (s.bloomFilters.getD c .empty).mightContain (v.toInt64 t) = .ok found) :
    BloomPruningTransparent build s blockSize (Chain.predicate {head := ⟨.eq, t, c, v⟩}) ↔
      (v ∈ vec.data → found = true) := by
  have hchecks : Checks (s.scanner (.bloomFiltersOnly blockSize))
      (Chain.predicate {head := ⟨.eq, t, c, v⟩}) (fun _ => true) found := by
    refine ⟨fun block => ?_, ?_⟩
    · rw [zoneMapAllows_chain hcol]
      rfl
    · rw [bloomFilterAllows_chain hcol]
      exact hfound
  have hlen : vec.data.length = s.numRows := length_data hcol
  show SameScans build s _ (.bloomFiltersOnly blockSize) (.unpruned blockSize) ↔ _
  refine (sameScans_iff (.bloomFiltersOnly blockSize) hpos hsize (ne_nil_of_column hcol) hchecks
    (selects_equality hcol ht v)).trans ?_
  simp only [allowed, Bool.true_and, decide_eq_true_eq]
  constructor
  · intro hall hv
    obtain ⟨r, hr, hget⟩ := List.getElem_of_mem hv
    refine hall r (hlen ▸ hr) ?_
    rw [List.getD_eq_getElem _ _ hr, hget]
  · intro hmem r hr hget
    have hin : r < vec.data.length := hlen.symm ▸ hr
    rw [List.getD_eq_getElem _ _ hin] at hget
    exact hmem (hget ▸ List.getElem_mem hin)

end Equality

/-! ### A column without a filter -/

/-- What the scan asks a column's filter. -/
def ProbeFinds (s : IntactSegment) (c : Nat) (k : Native .int32) : Prop :=
  ∃ sc cs, SegmentScanner.new s.segment {} = .ok sc ∧ sc.columnScanners[c]? = some cs ∧
    cs.bloomFilterCheckInt64 (k.toInt64 .int32) = .ok true

/-- The filter of the column is what is read back for one with the given values added to it. -/
def BloomFiltered (s : IntactSegment) (c numBits numHashes : Nat) (inserted : List (Native .int32)) : Prop :=
  ((BloomFilter.ofSize numBits numHashes).addAll (inserted.map fun x => BloomFilter.key x)).map
    BloomFilter.restored = .ok (s.bloomFilters.getD c .empty)

instance (s : IntactSegment) (c numBits numHashes : Nat) (inserted : List (Native .int32)) :
    Decidable (s.BloomFiltered c numBits numHashes inserted) := inferInstanceAs (Decidable (_ = _))

/-- Every probe of the widened constant is a probe of an inserted value, padded with
zeros as it was added. -/
def ProbesCovered (numBits numHashes : Nat) (inserted : List (Native .int32)) (k : Native .int32) : Prop :=
  ∀ p ∈ BloomFilter.probes numBits numHashes (k.toInt64 .int32),
    ∃ x ∈ inserted, p ∈ BloomFilter.probes numBits numHashes (BloomFilter.key x)

instance (numBits numHashes : Nat) (inserted : List (Native .int32)) (k : Native .int32) :
    Decidable (ProbesCovered numBits numHashes inserted k) :=
  inferInstanceAs (Decidable (∀ p ∈ BloomFilter.probes numBits numHashes (k.toInt64 .int32),
    ∃ x ∈ inserted, p ∈ BloomFilter.probes numBits numHashes (BloomFilter.key x)))

/-- A value that is not negative is padded as it is widened. -/
theorem probesCovered_of_nonneg {numBits numHashes : Nat} {inserted : List (Native .int32)}
    {k : Native .int32} (hk : k ∈ inserted) (hnonneg : 0 ≤ k.toInt) :
    ProbesCovered numBits numHashes inserted k := by
  have hmsb : k.msb = false := by
    rw [BitVec.msb_eq_toInt]
    exact decide_eq_false (not_lt.mpr hnonneg)
  have hkey : BloomFilter.key k = k.toInt64 .int32 :=
    (BitVec.signExtend_eq_setWidth_of_msb_false hmsb).symm
  exact fun p hp => ⟨k, hk, hkey ▸ hp⟩

/-- A test of the filter that is read finds the widened constant when the filter was
written and the probes are covered. -/
theorem BloomFiltered.mightContain {c numBits numHashes : Nat} {inserted : List (Native .int32)}
    (hfilter : s.BloomFiltered c numBits numHashes inserted) (hbits : 1 ≤ numBits)
    (hrange : numBits < 2 ^ 64) (k : Native .int32) :
    ∃ found, (s.bloomFilters.getD c .empty).mightContain (k.toInt64 .int32) = .ok found ∧
      (found = true ↔ numBits + 63 < 2 ^ 64 ∧ ProbesCovered numBits numHashes inserted k) := by
  unfold BloomFiltered at hfilter
  cases hadd : (BloomFilter.ofSize numBits numHashes).addAll (inserted.map fun x => BloomFilter.key x) with
  | error e =>
    rw [hadd] at hfilter
    cases hfilter
  | ok bf =>
    rw [hadd] at hfilter
    obtain ⟨hnumBits, hnumHashes, hholds⟩ := BloomFilter.holds_addAll hadd
    rw [← Except.ok.inj hfilter]
    by_cases hfits : numBits + 63 < 2 ^ 64
    · obtain ⟨found, hfound, hiff⟩ :=
        hholds.mightContain (hnumBits ▸ hbits) (.inl (hnumBits ▸ hfits)) (k.toInt64 .int32)
      refine ⟨found, ?_, ?_⟩
      · rw [BloomFilter.restored_of_lt (hnumBits ▸ hbits) (hnumBits ▸ hfits)]
        exact hfound
      · rw [hiff, hnumBits, hnumHashes, and_iff_right hfits]
        simp only [ProbesCovered, List.mem_map, exists_exists_and_eq_and]
    · refine ⟨false, ?_, ?_⟩
      · rw [BloomFilter.restored_of_ge (hnumBits ▸ hrange) (hnumBits ▸ not_lt.mp hfits)]
        exact BloomFilter.mightContain_empty _
      · exact ⟨fun h => absurd h Bool.false_ne_true, fun h => absurd h.1 hfits⟩

/-- **Whatever 32-bit values were added to the filter of a 32-bit column, the probe of a
constant finds it whenever the column has it, and pruning by the equality is
transparent, exactly when the column does not have it or the filter has words and every
probe of the widened constant is one of an added value.** -/
theorem bloomPruning_int32_iff (build : Build) (s : IntactSegment) (c : Nat) (vec : ColumnVector .int32)
    (hcol : s.columns[c]? = some ⟨.int32, vec⟩) (numBits numHashes : Nat) (hbits : 1 ≤ numBits)
    (hrange : numBits < 2 ^ 64) (inserted : List (Native .int32))
    (hfilter : s.BloomFiltered c numBits numHashes inserted) (blockSize : Nat) (hpos : 1 ≤ blockSize)
    (hsize : blockSize ≤ kScanBlockSize) (k : Native .int32) :
    ((k ∈ vec.data → s.ProbeFinds c k) ∧
      BloomPruningTransparent build s blockSize (Chain.predicate {head := ⟨.eq, .int32, c, k⟩})) ↔
      k ∉ vec.data ∨ (numBits + 63 < 2 ^ 64 ∧ ProbesCovered numBits numHashes inserted k) := by
  obtain ⟨found, hfound, hcovered⟩ := hfilter.mightContain hbits hrange k
  have hprobe : s.ProbeFinds c k ↔ found = true := by
    constructor
    · intro h
      obtain ⟨sc, cs, hnew, hcs, hcheck⟩ := h
      cases (s.new_eq {}).symm.trans hnew
      cases (scanner_column hcol).symm.trans hcs
      rw [ColumnScanner.bloomFilterCheckInt64_eq, hfound] at hcheck
      exact Except.ok.inj hcheck
    · rintro rfl
      refine ⟨_, _, s.new_eq {}, scanner_column hcol, ?_⟩
      rw [ColumnScanner.bloomFilterCheckInt64_eq]
      exact hfound
  rw [bloomPruningTransparent_iff hcol rfl hpos hsize k hfound, hprobe, and_self, hcovered]
  exact imp_iff_not_or

/-- Values 5 and -1 with a filter of 256 bits over them. -/
def filteredCalls : List WriterCall :=
  [.addColumn .int32 [5, -1] [false, false] .plain,
   .addBloomFilter 0 (((BloomFilter.ofSize 256 3).addAll [5, 0xffffffff]).toOption.getD .empty)]

def filtered : IntactSegment where
  segment := (writeSegment filteredCalls).toOption.getD ⟨{}, []⟩
  columns := [.ofValues .int32 [5, -1]]
  zoneMaps := [{}]
  bloomFilters := [((BloomFilter.ofSize 256 3).addAll [5, 0xffffffff]).toOption.getD .empty]
  columns_read := by decide +kernel
  zoneMaps_read := by decide +kernel
  bloomFilters_read := by decide +kernel
  numeric := by decide
  full := by decide +kernel

theorem filtered_nonneg_found :
    ((5 : Native .int32) ∈ ([5, -1] : List (Native .int32)) → filtered.ProbeFinds 0 5) ∧
      BloomPruningTransparent .scalar filtered 2 (Chain.predicate {head := ⟨.eq, .int32, 0, 5⟩}) :=
  (bloomPruning_int32_iff .scalar filtered 0 _ rfl 256 3 (by decide) (by decide) [5, -1] (by decide +kernel) 2
    (by decide) (by decide) 5).mpr
      (.inr ⟨by decide, probesCovered_of_nonneg (by decide) (by decide)⟩)

/-- The -1 is not found, and its row is lost. -/
theorem filtered_negative_missed :
    ¬ (((-1 : Native .int32) ∈ ([5, -1] : List (Native .int32)) → filtered.ProbeFinds 0 (-1)) ∧
      BloomPruningTransparent .scalar filtered 2 (Chain.predicate {head := ⟨.eq, .int32, 0, -1⟩})) :=
  fun h => not_sameScans (m := 0) (n := 1) (by decide +kernel) (by decide +kernel) (by decide) h.2

end IntactSegment

end ColumnarStore
