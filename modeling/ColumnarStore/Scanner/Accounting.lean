import ColumnarStore.Scanner.BloomPruning

/-! The books of a scanner.

A scanner counts over all its scans. Every row of a block is counted once when the block is
reached and once more when it is known what becomes of it: as returned, as filtered, or not at
all when the block is skipped. `Balanced` says so of the counters; a block keeps it
(`Balanced.scanBlock`), therefore a scan does (`Balanced.scan`) and one scan after another
(`Balanced.scans`), whatever the predicates and whatever the blocks are skipped for. -/
namespace ColumnarStore.Scanner
open Foundation Blocks Predicates SegmentScanner

/-! ### One scan after another -/

namespace SegmentScanner
variable (sc : SegmentScanner) (predicate : Predicate)

/-- The rows of a block. -/
def blockRows (block : Nat) : Nat := min sc.context.blockSize (sc.segment.numRows - block * sc.context.blockSize)

/-- The zone map or the filter skips the block. -/
def Skips (block : Nat) : Prop :=
  sc.zoneMapAllows predicate block = .ok false ∨ sc.bloomFilterAllows predicate = .ok false

instance (block : Nat) : Decidable (sc.Skips predicate block) :=
  inferInstanceAs (Decidable (_ = _ ∨ _ = _))

/-- The rows of the blocks a scan skips, among its first `k`. -/
def skippedIn (k : Nat) : Nat := (((List.range k).filter fun b => sc.Skips predicate b).map sc.blockRows).sum

def skippedRows : Nat := sc.skippedIn predicate (ZoneMap.blocksFor sc.context.blockSize sc.segment.numRows)

/-- A scan for every predicate, and every call of the output function in order. -/
def scans (build : Build) (sc : SegmentScanner) : List Predicate → Outcome (SegmentScanner × List Batch)
  | [] => .ok (sc, [])
  | predicate :: rest => do
    let (sc, batches) ← sc.scan build predicate
    let (sc, later) ← scans build sc rest
    return (sc, batches ++ later)

end SegmentScanner

/-- The scans with a scanner of their own. -/
def scanSegmentFor (build : Build) (seg : Segment) (context : ScanContext) (predicates : List Predicate) :
    Outcome (ScanStats × List Batch) := do
  let sc ← SegmentScanner.new seg context
  let (sc, batches) ← sc.scans build predicates
  return (sc.stats, batches)

/-- The counters after `scanned` rows, of which `returned` were delivered and `skipped` were in
blocks that were skipped. -/
structure Balanced (scanned returned skipped : Nat) (stats : ScanStats) : Prop where
  rowsScanned : stats.rowsScanned = scanned
  rowsReturned : stats.rowsReturned = returned
  blocksPruned : stats.blocksPrunedZoneMap + stats.blocksPrunedBloom ≤ stats.blocksScanned
  rowsSkipped : stats.rowsScanned = stats.rowsFiltered + stats.rowsReturned + skipped

theorem balanced_new : Balanced 0 0 0 {} := ⟨rfl, rfl, le_rfl, rfl⟩

section Block
variable {scanned returned skipped : Nat} {stats : ScanStats} (h : Balanced scanned returned skipped stats)
include h

/-- A block that one of the two checks skips. -/
theorem Balanced.skip (rows zone bloom : Nat) (hone : zone + bloom = 1) :
    Balanced (scanned + rows) returned (skipped + rows)
      {stats with
        blocksScanned := stats.blocksScanned + 1
        blocksPrunedZoneMap := stats.blocksPrunedZoneMap + zone
        blocksPrunedBloom := stats.blocksPrunedBloom + bloom
        rowsScanned := stats.rowsScanned + rows} := by
  obtain ⟨hscanned, hreturned, hpruned, hskipped⟩ := h
  constructor
  · dsimp only
    rw [hscanned]
  · exact hreturned
  · dsimp only
    omega
  · dsimp only
    omega

/-- A block of which `kept` rows are delivered. -/
theorem Balanced.deliver {rows kept : Nat} (hkept : kept ≤ rows) :
    Balanced (scanned + rows) (returned + kept) skipped
      {stats with
        blocksScanned := stats.blocksScanned + 1
        rowsScanned := stats.rowsScanned + rows
        rowsFiltered := stats.rowsFiltered + (rows - kept)
        rowsReturned := stats.rowsReturned + kept} := by
  obtain ⟨hscanned, hreturned, hpruned, hskipped⟩ := h
  constructor
  · dsimp only
    rw [hscanned]
  · dsimp only
    rw [hreturned]
  · dsimp only
    omega
  · dsimp only
    omega

end Block

/-! ### One block -/

theorem BlockFilter.length_survivors_le {f : BlockFilter} {count : Nat} {rows : List Nat}
    (h : f.survivors count = .ok rows) : rows.length ≤ count := by
  have hstep : ∀ k < count, ∀ rows rows' : List Nat, rows.length ≤ k →
      (do return if ← f.load k then rows ++ [k] else rows : Outcome (List Nat)) = .ok rows' → rows'.length ≤ k + 1 := by
    intro k _ rows rows' hrows hstep
    obtain ⟨kept, -, hstep⟩ := bind_eq_ok.mp hstep
    cases hstep
    cases kept with
    | false => exact Nat.le_succ_of_le hrows
    | true => simpa using hrows
  exact foldlM_range_preserves hstep le_rfl h

section Block
variable {build : Build} {sc : SegmentScanner} {predicate : Predicate} {columns : List Column}

/-- No block has more rows found in it than it has. -/
theorem SegmentScanner.length_matchRows_le {interp interp' : EvalState} {offset count : Nat} {rows : List Nat}
    (h : sc.matchRows build predicate columns interp offset count = .ok (interp', rows)) : rows.length ≤ count := by
  unfold matchRows at h
  split at h
  · obtain ⟨cs, -, h⟩ := bind_eq_ok.mp h
    obtain ⟨mask, -, h⟩ := bind_eq_ok.mp h
    obtain ⟨found, hfound, h⟩ := bind_eq_ok.mp h
    cases h
    exact BlockFilter.length_survivors_le hfound
  · obtain ⟨found, hfound, h⟩ := bind_eq_ok.mp h
    exact (length_compact_le h).trans (BlockFilter.length_survivors_le hfound)

/-- Every run is delivered at its length. -/
theorem deliveredRows_readRuns {blockOffset : Nat} {rs : List (Nat × Nat)} {batches : List Batch}
    (h : rs.mapM (SegmentScanner.readRun columns blockOffset) = .ok batches) :
    deliveredRows batches = (rs.map Prod.snd).sum := by
  have hall := mapM_eq_ok.mp h
  clear h
  induction hall with
  | nil => rfl
  | cons hread _ ih =>
    obtain ⟨bytes, -, hmade⟩ := bind_eq_ok.mp hread
    cases hmade
    rw [List.map_cons, List.sum_cons, ← ih]
    rfl

/-- What a block that is not skipped adds. -/
theorem SegmentScanner.deliverBlock_spec {p p' : Progress} {blockOffset blockCount : Nat}
    (h : sc.deliverBlock build predicate columns p blockOffset blockCount = .ok p') :
    ∃ batches, p'.batches = p.batches ++ batches ∧ deliveredRows batches ≤ blockCount ∧
      p'.stats = {p.stats with
        rowsFiltered := p.stats.rowsFiltered + (blockCount - deliveredRows batches)
        rowsReturned := p.stats.rowsReturned + deliveredRows batches} := by
  obtain ⟨found, hfound, h⟩ := bind_eq_ok.mp h
  obtain ⟨batches, hruns, h⟩ := bind_eq_ok.mp h
  cases h
  have hcount : deliveredRows batches = found.2.length := by
    rw [deliveredRows_readRuns hruns, sum_runs]
  exact ⟨batches, rfl, hcount.trans_le (length_matchRows_le hfound), rfl⟩

/-- A block keeps the balance. -/
theorem Balanced.scanBlock {p p' : Progress} {block scanned returned skipped : Nat}
    (h : Balanced scanned (returned + deliveredRows p.batches) skipped p.stats)
    (hok : sc.scanBlock build predicate columns p block = .ok p') :
    Balanced (scanned + sc.blockRows block) (returned + deliveredRows p'.batches)
      (skipped + if sc.Skips predicate block then sc.blockRows block else 0) p'.stats := by
  obtain ⟨shouldScan, hzone, hok⟩ := bind_eq_ok.mp hok
  cases shouldScan with
  | false =>
    cases hok
    rw [if_pos (.inl hzone)]
    exact h.skip (sc.blockRows block) 1 0 rfl
  | true =>
    obtain ⟨mightMatch, hbloom, hok⟩ := bind_eq_ok.mp hok
    cases mightMatch with
    | false =>
      cases hok
      rw [if_pos (.inr hbloom)]
      exact h.skip (sc.blockRows block) 0 1 rfl
    | true =>
      have hkept : ¬ sc.Skips predicate block := by
        intro hskips
        rw [SegmentScanner.Skips, hzone, hbloom] at hskips
        rcases hskips with hfalse | hfalse
        · cases hfalse
        · cases hfalse
      obtain ⟨batches, hbatches, hfits, hstats⟩ := SegmentScanner.deliverBlock_spec hok
      rw [if_neg hkept, hbatches, deliveredRows_append, hstats, ← Nat.add_assoc returned]
      exact h.deliver hfits

end Block

/-! ### A whole scan -/

namespace SegmentScanner
variable (sc : SegmentScanner) (predicate : Predicate)

theorem skippedIn_succ (k : Nat) : sc.skippedIn predicate (k + 1) =
    sc.skippedIn predicate k + if sc.Skips predicate k then sc.blockRows k else 0 := by
  rw [skippedIn, List.range_succ, List.filter_append, List.map_append, List.sum_append, ← skippedIn]
  congr 1
  split
  · next h => simp [h]
  · next h => simp [h]

/-- The blocks of a scan have the rows of the segment. -/
theorem sum_blockRows (hpos : 0 < sc.context.blockSize) (hsize : sc.context.blockSize ≤ kScanBlockSize)
    (hrows : sc.segment.numRows < 2 ^ 32) :
    ((List.range (ZoneMap.blocksFor sc.context.blockSize sc.segment.numRows)).map sc.blockRows).sum =
      sc.segment.numRows := by
  have hlen := congrArg List.length (visited_all hpos hsize hrows)
  rw [visited, List.length_flatMap, List.length_range] at hlen
  simp only [length_positions] at hlen
  exact hlen

end SegmentScanner

variable {build : Build} {sc sc' : SegmentScanner} {predicate : Predicate} {batches : List Batch}

/-- A scan changes nothing of its scanner but the counters. -/
theorem SegmentScanner.scan_keeps (h : sc.scan build predicate = .ok (sc', batches)) :
    ∃ stats, sc' = {sc with stats} := by
  unfold scan at h
  split at h
  · cases h
  · obtain ⟨columns, -, h⟩ := bind_eq_ok.mp h
    obtain ⟨p, -, h⟩ := bind_eq_ok.mp h
    cases h
    exact ⟨p.stats, rfl⟩

/-- A scan keeps the balance. -/
theorem Balanced.scan {scanned returned skipped : Nat} (h : Balanced scanned returned skipped sc.stats)
    (hsize : sc.context.blockSize ≤ kScanBlockSize) (hrows : sc.segment.numRows < 2 ^ 32)
    (hok : sc.scan build predicate = .ok (sc', batches)) :
    Balanced (scanned + sc.segment.numRows) (returned + deliveredRows batches) (skipped + sc.skippedRows predicate)
      sc'.stats := by
  unfold SegmentScanner.scan at hok
  split at hok
  · cases hok
  next hzero =>
  obtain ⟨columns, -, hok⟩ := bind_eq_ok.mp hok
  obtain ⟨p, hloop, hok⟩ := bind_eq_ok.mp hok
  cases hok
  have hstep : ∀ k < ZoneMap.blocksFor sc.context.blockSize sc.segment.numRows, ∀ p p' : Progress,
      Balanced (scanned + ((List.range k).map sc.blockRows).sum) (returned + deliveredRows p.batches)
        (skipped + sc.skippedIn predicate k) p.stats →
      sc.scanBlock build predicate columns p k = .ok p' →
      Balanced (scanned + ((List.range (k + 1)).map sc.blockRows).sum) (returned + deliveredRows p'.batches)
        (skipped + sc.skippedIn predicate (k + 1)) p'.stats := by
    intro k _ p p' hp hblock
    rw [List.range_succ, List.map_append, List.sum_append, List.map_singleton, List.sum_singleton, ← Nat.add_assoc,
      skippedIn_succ, ← Nat.add_assoc]
    exact hp.scanBlock hblock
  have hall := foldlM_range_preserves hstep (s := {stats := sc.stats}) h hloop
  rwa [sc.sum_blockRows (Nat.pos_of_ne_zero hzero) hsize hrows] at hall

/-- One scan after another keeps it. -/
theorem Balanced.scans {scanned returned skipped : Nat} (h : Balanced scanned returned skipped sc.stats)
    (hsize : sc.context.blockSize ≤ kScanBlockSize) (hrows : sc.segment.numRows < 2 ^ 32)
    {predicates : List Predicate} (hok : sc.scans build predicates = .ok (sc', batches)) :
    Balanced (scanned + sc.segment.numRows * predicates.length) (returned + deliveredRows batches)
      (skipped + (predicates.map sc.skippedRows).sum) sc'.stats := by
  induction predicates generalizing sc scanned returned skipped batches with
  | nil =>
    cases hok
    exact h
  | cons predicate rest ih =>
    obtain ⟨⟨scanned₁, first⟩, hfirst, hok⟩ := bind_eq_ok.mp hok
    obtain ⟨⟨scanned₂, later⟩, hlater, hok⟩ := bind_eq_ok.mp hok
    cases hok
    obtain ⟨stats, rfl⟩ := scan_keeps hfirst
    have hlast := ih (h.scan hsize hrows hfirst) hsize hrows hlater
    rw [List.length_cons, Nat.mul_succ, Nat.add_comm (_ * _), ← Nat.add_assoc, deliveredRows_append, ← Nat.add_assoc,
      List.map_cons, List.sum_cons, ← Nat.add_assoc]
    exact hlast

end ColumnarStore.Scanner

/-! ### Scans that return -/

namespace ColumnarStore
open Foundation Predicates Scanner

theorem Segment.getBloomFilter_numBits_lt {seg : Segment} {idx : Nat} {bf : BloomFilter}
    (h : seg.getBloomFilter idx = .ok bf) : bf.numBits < 2 ^ 64 := by
  obtain ⟨colMeta, -, h⟩ := bind_eq_ok.mp h
  split at h
  · cases h
    decide
  · obtain ⟨data, -, h⟩ := bind_eq_ok.mp h
    exact BloomFilter.read_numBits_lt h

namespace IntactSegment
variable {s : IntactSegment} {context : ScanContext}

/-- Every filter has words, as those have that were attached. -/
def FiltersHaveWords (s : IntactSegment) : Prop := ∀ bf ∈ s.bloomFilters, bf.bits ≠ []

instance (s : IntactSegment) : Decidable s.FiltersHaveWords :=
  inferInstanceAs (Decidable (∀ bf ∈ s.bloomFilters, bf.bits ≠ []))

/-- The filters of a file of the writer have words, whatever filters it was given. -/
theorem filtersHaveWords_written {calls : List WriterCall} {w : SegmentWriter}
    (hrun : SegmentWriter.run {} calls = .ok w) (haddr : w.Addressable) (hs : s.segment = w.finish)
    (hbits : ∀ c, (bloomFilterOf calls c).numBits < 2 ^ 64)
    (hhashes : ∀ c, (bloomFilterOf calls c).numHashes < 2 ^ 64) : s.FiltersHaveWords := by
  intro bf hbf
  have hw := SegmentWriter.run_written hrun
  obtain ⟨c, hc, hread⟩ := exists_of_mem_mapM s.bloomFilters_read hbf
  have hin : c < (addedColumns calls).length := by
    rw [hs] at hc
    rw [hw.columns.length_eq]
    exact List.mem_range.mp hc
  rw [hs, SegmentWriter.written_bloomFilter hw (List.getElem?_eq_getElem hin) (haddr.filterPointed c) (hbits c) (hhashes c)] at hread
  cases hread
  exact BloomFilter.restored_words _

theorem filter_words (hwords : s.FiltersHaveWords) (c : Nat) : (s.bloomFilters.getD c .empty).bits ≠ [] := by
  rw [List.getD_eq_getElem?_getD]
  cases hget : s.bloomFilters[c]? with
  | none => decide
  | some bf => exact hwords bf (List.mem_of_getElem? hget)

section Chain
variable (build : Build) (context : ScanContext) (hint : ∀ col ∈ s.columns, col.type.isInteger = true) {chain : Chain}
  (hcolumns : s.HasColumns chain)
include hint hcolumns

/-- Every chain finds some of the rows, by either path. -/
theorem exists_selects : ∃ keep, Selects build s (s.scanner context) chain.predicate keep := by
  by_cases hmany : chain.tail = []
  · have hhead := List.getElem?_eq_getElem (hcolumns chain.head List.mem_cons_self)
    exact ⟨_, selects_leaf hhead (hint _ (List.mem_of_getElem? hhead)) build rfl hmany⟩
  · exact ⟨_, selects_chain build hcolumns hmany⟩

omit hint

theorem exists_checks (hwords : s.FiltersHaveWords) :
    ∃ zone bloom, Checks (s.scanner context) chain.predicate zone bloom := by
  have hhead := List.getElem?_eq_getElem (hcolumns chain.head List.mem_cons_self)
  have hbloom : ∃ bloom, (s.scanner context).bloomFilterAllows chain.predicate = .ok bloom := by
    rw [bloomFilterAllows_chain hhead]
    split
    · unfold bloomFilterKeeps
      split
      · exact BloomFilter.mightContain_ok (filter_words hwords _)
          (Segment.getBloomFilter_numBits_lt (getBloomFilter hhead)) _
      · exact ⟨true, rfl⟩
    · exact ⟨true, rfl⟩
  obtain ⟨bloom, hbloom⟩ := hbloom
  exact ⟨_, bloom, fun block => zoneMapAllows_chain hhead block, hbloom⟩

include hint

/-- A scan whose checks can be made returns. -/
theorem scan_returns (hwords : s.FiltersHaveWords) (hpos : 1 ≤ context.blockSize)
    (hsize : context.blockSize ≤ kScanBlockSize) (stats : ScanStats) :
    ∃ sc batches, SegmentScanner.scan build {s.scanner context with stats} chain.predicate = .ok (sc, batches) := by
  obtain ⟨keep, hselects⟩ := exists_selects build context hint hcolumns
  obtain ⟨zone, bloom, hchecks⟩ := exists_checks context hcolumns hwords
  have hrows := numRows_lt_of_ne_nil (columns_ne_nil hcolumns)
  have hchecks : Checks {s.scanner context with stats} chain.predicate zone bloom :=
    ⟨hchecks.zoneMap, hchecks.bloomFilter⟩
  have hseg : SegmentScanner.segment {s.scanner context with stats} = s.segment := rfl
  obtain ⟨batches, hscan, -⟩ := scan_spec hseg hpos hsize hrows hchecks hselects
  exact ⟨_, batches, hscan⟩

end Chain

/-- So does one scan after another. -/
theorem scans_return (build : Build) (hint : ∀ col ∈ s.columns, col.type.isInteger = true) {chains : List Chain}
    (hcolumns : ∀ chain ∈ chains, s.HasColumns chain) (hwords : s.FiltersHaveWords) (hpos : 1 ≤ context.blockSize)
    (hsize : context.blockSize ≤ kScanBlockSize) (stats : ScanStats) :
    ∃ sc batches, SegmentScanner.scans build {s.scanner context with stats} (chains.map Chain.predicate) =
      .ok (sc, batches) := by
  induction chains generalizing stats with
  | nil => exact ⟨_, [], rfl⟩
  | cons chain rest ih =>
    have hhead := hcolumns chain List.mem_cons_self
    obtain ⟨sc, first, hfirst⟩ := scan_returns build context hint hhead hwords hpos hsize stats
    obtain ⟨stats', rfl⟩ := SegmentScanner.scan_keeps hfirst
    obtain ⟨sc', later, hlater⟩ := ih (fun c hc => hcolumns c (List.mem_cons_of_mem _ hc)) stats'
    refine ⟨sc', first ++ later, ?_⟩
    rw [List.map_cons, SegmentScanner.scans, hfirst, bind_ok]
    show (SegmentScanner.scans build {s.scanner context with stats := stats'} _ >>= _) = _
    rw [hlater]
    rfl

/-- **However often a segment is scanned, by whatever chains and with whatever checks, the counters of
the scanner balance; and when every filter has words the scans return.** -/
theorem scans_balance (build : Build) (s : IntactSegment) (hint : ∀ col ∈ s.columns, col.type.isInteger = true)
    (chains : List Chain) (hcolumns : ∀ chain ∈ chains, s.HasColumns chain) (context : ScanContext)
    (hpos : 1 ≤ context.blockSize) (hsize : context.blockSize ≤ kScanBlockSize) :
    (∀ stats batches, scanSegmentFor build s.segment context (chains.map Chain.predicate) = .ok (stats, batches) →
      Balanced (s.numRows * chains.length) (deliveredRows batches)
        ((chains.map fun chain => (s.scanner context).skippedRows chain.predicate).sum) stats) ∧
      (s.FiltersHaveWords →
        ∃ stats batches,
          scanSegmentFor build s.segment context (chains.map Chain.predicate) = .ok (stats, batches)) := by
  constructor
  · intro stats batches hscans
    rw [scanSegmentFor, new_eq, bind_ok] at hscans
    obtain ⟨⟨sc, delivered⟩, hscans, hdone⟩ := bind_eq_ok.mp hscans
    cases hdone
    cases chains with
    | nil =>
      cases hscans
      exact balanced_new
    | cons chain rest =>
      have hrows := numRows_lt_of_ne_nil (columns_ne_nil (hcolumns chain List.mem_cons_self))
      have hnew : Balanced 0 0 0 (s.scanner context).stats := balanced_new
      have hbalanced := hnew.scans hsize hrows hscans
      simp only [Nat.zero_add, List.length_map, List.map_map] at hbalanced
      exact hbalanced
  · intro hwords
    obtain ⟨sc, batches, hscans⟩ := scans_return build hint hcolumns hwords hpos hsize {}
    refine ⟨sc.stats, batches, ?_⟩
    rw [scanSegmentFor, new_eq, bind_ok]
    show (SegmentScanner.scans build {s.scanner context with stats := {}} _ >>= _) = _
    rw [hscans]
    rfl

/-- Three scans of a segment with a zone map over its first column and no filters: the zone map skips
the block, the default filter skips it, and its rows are delivered. -/
theorem mapped_scans_balance :
    ∃ stats batches,
      scanSegmentFor .avx512 mapped.segment {blockSize := 2}
          ([{head := ⟨.eq, .int32, 0, 1⟩}, {head := ⟨.eq, .int32, 0, 5⟩}, {head := ⟨.gt, .int32, 1, 6⟩}].map
            Chain.predicate) = .ok (stats, batches) ∧
        Balanced (mapped.numRows * 3) (deliveredRows batches)
          (([{head := ⟨.eq, .int32, 0, 1⟩}, {head := ⟨.eq, .int32, 0, 5⟩}, {head := ⟨.gt, .int32, 1, 6⟩}].map
            fun chain : Chain => (mapped.scanner {blockSize := 2}).skippedRows chain.predicate).sum) stats := by
  obtain ⟨hbalanced, hreturns⟩ := scans_balance .avx512 mapped (by decide)
    [{head := ⟨.eq, .int32, 0, 1⟩}, {head := ⟨.eq, .int32, 0, 5⟩}, {head := ⟨.gt, .int32, 1, 6⟩}] (by decide)
    {blockSize := 2} (by decide) (by decide)
  obtain ⟨stats, batches, hscans⟩ := hreturns (by decide)
  exact ⟨stats, batches, hscans, hbalanced stats batches hscans⟩

end IntactSegment

end ColumnarStore
