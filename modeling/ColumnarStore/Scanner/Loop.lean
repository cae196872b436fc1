import ColumnarStore.Scanner.Delivery

/-! The block loop.

Whatever decides which rows of a block are kept and which blocks are skipped, the loop
delivers the kept rows of the other blocks in ascending order and counts what it does
(`scan_spec`). One block is `scanBlock_step`; `Scanned` is what holds between blocks. -/
namespace ColumnarStore.Scanner
open Foundation Blocks Predicates SegmentScanner

/-- In every block the rows found are those that `keep` keeps. -/
def Selects (build : Build) (s : IntactSegment) (sc : SegmentScanner) (predicate : Predicate)
    (keep : Nat → Bool) : Prop :=
  ∀ interp offset count, count ≤ kScanBlockSize → offset + count ≤ s.numRows →
    ∃ interp', sc.matchRows build predicate s.columns interp offset count =
      .ok (interp', (List.range count).filter fun i => keep (offset + i))

/-- What the two checks of a block return. -/
structure Checks (sc : SegmentScanner) (predicate : Predicate) (zone : Nat → Bool) (bloom : Bool) :
    Prop where
  zoneMap : ∀ block, sc.zoneMapAllows predicate block = .ok (zone block)
  bloomFilter : sc.bloomFilterAllows predicate = .ok bloom

/-! ### Counting -/

section Loop
variable (size n : Nat) (zone : Nat → Bool) (bloom : Bool) (keep : Nat → Bool)

/-- The rows of the first `k` blocks. -/
def visited (k : Nat) : List Nat := (List.range k).flatMap (positions size n)

/-- The block of the row is not skipped. -/
def allowed (r : Nat) : Bool := zone (r / size) && bloom

/-- The counters after `k` blocks, started from `s`. -/
def tally (s : ScanStats) (k : Nat) : ScanStats where
  blocksScanned := s.blocksScanned + k
  blocksPrunedZoneMap := s.blocksPrunedZoneMap + ((List.range k).filter fun b => !zone b).length
  blocksPrunedBloom := s.blocksPrunedBloom + ((List.range k).filter fun b => zone b && !bloom).length
  rowsScanned := s.rowsScanned + (visited size n k).length
  rowsFiltered := s.rowsFiltered +
    ((visited size n k).filter fun r => allowed size zone bloom r && !keep r).length
  rowsReturned := s.rowsReturned +
    ((visited size n k).filter fun r => allowed size zone bloom r && keep r).length

variable {size n zone bloom keep}

theorem visited_succ (k : Nat) : visited size n (k + 1) = visited size n k ++ positions size n k := by
  rw [visited, List.range_succ, List.flatMap_append, List.flatMap_singleton]
  rfl

/-- The rows of one block are all skipped or none. -/
theorem filter_positions (k : Nat) (p : Nat → Bool) :
    (positions size n k).filter (fun r => allowed size zone bloom r && p r) =
      if zone k && bloom then (positions size n k).filter p else [] := by
  have hblock : ∀ r ∈ positions size n k, allowed size zone bloom r = (zone k && bloom) := by
    intro r hr
    rw [allowed, div_of_mem_positions hr]
  split
  · next h =>
    refine List.filter_congr fun r hr => ?_
    rw [hblock r hr, h, Bool.true_and]
  · next h =>
    refine List.filter_eq_nil_iff.mpr fun r hr => ?_
    rw [hblock r hr, Bool.eq_false_of_not_eq_true h, Bool.false_and]
    exact Bool.false_ne_true

/-- What one block adds to the counters. -/
theorem tally_succ (s : ScanStats) (k : Nat) : tally size n zone bloom keep s (k + 1) =
    let t := tally size n zone bloom keep s k
    { blocksScanned := t.blocksScanned + 1
      blocksPrunedZoneMap := t.blocksPrunedZoneMap + if zone k then 0 else 1
      blocksPrunedBloom := t.blocksPrunedBloom + if zone k && !bloom then 1 else 0
      rowsScanned := t.rowsScanned + min size (n - k * size)
      rowsFiltered := t.rowsFiltered +
        if zone k && bloom then ((positions size n k).filter fun r => !keep r).length else 0
      rowsReturned := t.rowsReturned +
        if zone k && bloom then ((positions size n k).filter keep).length else 0 } := by
  simp only [tally, visited_succ, List.filter_append, filter_positions, List.range_succ,
    List.length_append, length_positions, Nat.add_assoc]
  cases hzone : zone k <;> cases hbloom : bloom <;> simp [hzone]

end Loop

/-! ### One block -/

section Loop
variable {build : Build} {s : IntactSegment} {sc : SegmentScanner} {predicate : Predicate}
  {zone : Nat → Bool} {bloom : Bool} {keep : Nat → Bool}

/-- Between blocks: the kept rows of the first `k` blocks are delivered and counted. -/
structure Scanned (s : IntactSegment) (sc : SegmentScanner) (zone : Nat → Bool) (bloom : Bool)
    (keep : Nat → Bool) (k : Nat) (p : Progress) : Prop where
  stats : p.stats = tally sc.context.blockSize s.numRows zone bloom keep sc.stats k
  delivers : Delivers s.columns p.batches
    ((visited sc.context.blockSize s.numRows k).filter fun r =>
      allowed sc.context.blockSize zone bloom r && keep r)

/-- A block that is not skipped. -/
theorem deliverBlock_ok (hselects : Selects build s sc predicate keep) (p : Progress) {block : Nat}
    (hsize : sc.context.blockSize ≤ kScanBlockSize) (hblock : block * sc.context.blockSize ≤ s.numRows) :
    ∃ interp batches,
      sc.deliverBlock build predicate s.columns p (block * sc.context.blockSize)
          (min sc.context.blockSize (s.numRows - block * sc.context.blockSize)) =
        .ok ⟨{p.stats with
                rowsFiltered := p.stats.rowsFiltered +
                  ((positions sc.context.blockSize s.numRows block).filter fun r => !keep r).length
                rowsReturned := p.stats.rowsReturned +
                  ((positions sc.context.blockSize s.numRows block).filter keep).length},
              interp, p.batches ++ batches⟩ ∧
        Delivers s.columns batches ((positions sc.context.blockSize s.numRows block).filter keep) := by
  generalize hoffset : block * sc.context.blockSize = offset at *
  generalize hcount : min sc.context.blockSize (s.numRows - offset) = count
  have hrows : offset + count ≤ s.numRows := by omega
  have hpositions : positions sc.context.blockSize s.numRows block =
      (List.range count).map (offset + ·) := by rw [positions, hoffset, hcount]
  obtain ⟨interp, hmatch⟩ := hselects p.interp offset count (by omega) hrows
  have hin : ∀ r ∈ (List.range count).filter fun i => keep (offset + i), r < count :=
    fun r hr => List.mem_range.mp (List.mem_filter.mp hr).1
  obtain ⟨batches, hruns, hdelivers⟩ := deliver_runs hrows hin
  have hkept : ((List.range count).filter fun i => keep (offset + i)).map (offset + ·) =
      (positions sc.context.blockSize s.numRows block).filter keep := by
    rw [hpositions, List.filter_map]
    rfl
  rw [hkept] at hdelivers
  refine ⟨interp, batches, ?_, hdelivers⟩
  have hdelivered : (batches.map Batch.count).sum =
      ((positions sc.context.blockSize s.numRows block).filter keep).length := hdelivers.count
  have hfiltered : count - ((positions sc.context.blockSize s.numRows block).filter keep).length =
      ((positions sc.context.blockSize s.numRows block).filter fun r => !keep r).length := by
    have hsplit := List.length_eq_length_filter_add keep
      (l := positions sc.context.blockSize s.numRows block)
    have hlen : (positions sc.context.blockSize s.numRows block).length = count := by
      rw [hpositions, List.length_map, List.length_range]
    omega
  rw [deliverBlock, hmatch, bind_ok]
  simp only [hruns, bind_ok, hdelivered, hfiltered, pure_eq_ok]

theorem scanBlock_step (hseg : sc.segment = s.segment) (hchecks : Checks sc predicate zone bloom)
    (hselects : Selects build s sc predicate keep) (hsize : sc.context.blockSize ≤ kScanBlockSize)
    {k : Nat} (hk : k * sc.context.blockSize ≤ s.numRows) {p : Progress}
    (h : Scanned s sc zone bloom keep k p) :
    ∃ p', sc.scanBlock build predicate s.columns p k = .ok p' ∧ Scanned s sc zone bloom keep (k + 1) p' := by
  have hrows : sc.segment.numRows = s.numRows := congrArg Segment.numRows hseg
  obtain ⟨hstats, hdelivers⟩ := h
  have hfilter : (visited sc.context.blockSize s.numRows (k + 1)).filter
        (fun r => allowed sc.context.blockSize zone bloom r && keep r) =
      (visited sc.context.blockSize s.numRows k).filter
          (fun r => allowed sc.context.blockSize zone bloom r && keep r) ++
        if zone k && bloom then (positions sc.context.blockSize s.numRows k).filter keep else [] := by
    rw [visited_succ, List.filter_append, filter_positions]
  rw [scanBlock, hrows]
  simp only [hchecks.zoneMap, hchecks.bloomFilter, bind_ok]
  cases hzone : zone k with
  | false =>
    refine ⟨_, rfl, ?_, ?_⟩
    · simp [hstats, tally_succ, hzone]
    · rw [hfilter, hzone, Bool.false_and, if_neg Bool.false_ne_true, List.append_nil]
      exact hdelivers
  | true =>
    cases bloom with
    | false =>
      refine ⟨_, rfl, ?_, ?_⟩
      · simp [hstats, tally_succ, hzone]
      · rw [hfilter, Bool.and_false, if_neg Bool.false_ne_true, List.append_nil]
        exact hdelivers
    | true =>
      obtain ⟨interp, batches, hok, hbatches⟩ := deliverBlock_ok hselects
        {p with stats := {p.stats with
          blocksScanned := p.stats.blocksScanned + 1
          rowsScanned := p.stats.rowsScanned +
            min sc.context.blockSize (s.numRows - k * sc.context.blockSize)}} hsize hk
      refine ⟨_, hok, ?_, ?_⟩
      · simp [hstats, tally_succ, hzone]
      · rw [hfilter, hzone, Bool.true_and, if_pos rfl]
        exact hdelivers.append hbatches

/-! ### The whole scan -/

/-- The blocks of a scan cover the rows. -/
theorem visited_all {size n : Nat} (hpos : 0 < size) (hsize : size ≤ kScanBlockSize) (hn : n < 2 ^ 32) :
    visited size n (ZoneMap.blocksFor size n) = List.range n := by
  have hsmall : kScanBlockSize = 8192 := rfl
  rw [ZoneMap.blocksFor, Nat.mod_eq_of_lt (by omega)]
  exact flatMap_positions_all hpos n

/-- **The scan delivers, in ascending order, the kept rows of the blocks it does not
skip, and counts them.** -/
theorem scan_spec (hseg : sc.segment = s.segment) (hpos : 0 < sc.context.blockSize)
    (hsize : sc.context.blockSize ≤ kScanBlockSize) (hrows : s.numRows < 2 ^ 32)
    (hchecks : Checks sc predicate zone bloom) (hselects : Selects build s sc predicate keep) :
    ∃ batches,
      sc.scan build predicate =
        .ok ({sc with
          stats := tally sc.context.blockSize s.numRows zone bloom keep sc.stats
            (ZoneMap.blocksFor sc.context.blockSize s.numRows)}, batches) ∧
      Delivers s.columns batches
        ((List.range s.numRows).filter fun r => allowed sc.context.blockSize zone bloom r && keep r) := by
  obtain ⟨p, hrun, hp⟩ := foldlM_range_invariant (sc.scanBlock build predicate s.columns)
    (Scanned s sc zone bloom keep) (ZoneMap.blocksFor sc.context.blockSize s.numRows)
    {stats := sc.stats} ⟨by simp [tally, visited], .nil _⟩ (by
      intro k p hk hp
      exact scanBlock_step hseg hchecks hselects hsize (ZoneMap.mul_lt_of_lt_blocksFor hk).le hp)
  obtain ⟨hstats, hdelivers⟩ := hp
  rw [visited_all hpos hsize hrows] at hdelivers
  refine ⟨p.batches, ?_, hdelivers⟩
  rw [scan, if_neg hpos.ne']
  simp only [hseg, s.columns_read, bind_ok]
  rw [show s.segment.numRows = s.numRows from rfl, hrun, bind_ok, hstats]
  rfl

end Loop

end ColumnarStore.Scanner
