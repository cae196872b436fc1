import ColumnarStore.Scanner.ZonePruning

/-! Aggregates over the rows a scan delivers.

The callback takes the memory of every column for 64-bit integers, whatever the type of
the column. With columns of eight bytes the calls amount to a fold over the delivered
rows (`scan_eq_ok_iff`); with one of four bytes the first call reads past its memory. So
the aggregates are those of the matching rows exactly when there is nothing to
read or every column is of eight bytes, and the scan itself is right
(`aggregates_match_iff`). -/
namespace ColumnarStore.Scanner
open Foundation Predicates

/-- What is kept for an aggregation column, an entry of each of the four vectors. -/
structure AggregateResult where
  sum : Float := 0
  count : Int64Bits := 0
  min : Int64Bits := BitVec.intMax 64
  max : Int64Bits := BitVec.intMin 64

/-- `std::min`. -/
def stdMin (a b : Int64Bits) : Int64Bits := if b.slt a then b else a

/-- `std::max`. -/
def stdMax (a b : Int64Bits) : Int64Bits := if a.slt b then b else a

def AggregateResult.add (r : AggregateResult) (value : Int64Bits) : AggregateResult where
  sum := r.sum + (Int64.ofBitVec value).toFloat
  count := r.count + 1
  min := stdMin r.min value
  max := stdMax r.max value

structure AggregateScanner where
  scanner : SegmentScanner
  aggColumns : List Nat
  results : List AggregateResult

namespace AggregateScanner

def new (seg : Segment) (aggColumns : List Nat) : Outcome AggregateScanner := do
  let scanner ← SegmentScanner.new seg {}
  return {scanner, aggColumns, results := List.replicate aggColumns.length {}}

/-- The callback: a column's memory is read as `int64_t`, not as the column's type. -/
def output (aggColumns : List Nat) (results : List AggregateResult) (b : Batch) :
    Outcome (List AggregateResult) :=
  (aggColumns.zip results).mapM fun (colIdx, r) => do
    let memory ← orFault .outOfBounds b.columns[colIdx]?
    let data ← orFault .outOfBounds (loadWords 8 b.count memory)
    return data.foldl AggregateResult.add r

def scan (build : Build) (agg : AggregateScanner) (predicate : Predicate) : Outcome AggregateScanner := do
  let (scanner, batches) ← agg.scanner.scan build predicate
  let results ← batches.foldlM (output agg.aggColumns) agg.results
  return {agg with scanner, results}

end AggregateScanner

/-- The results of a scanner of its own after one scan. -/
def aggregateSegment (build : Build) (seg : Segment) (aggColumns : List Nat) (predicate : Predicate) :
    Outcome (List AggregateResult) := do
  let agg ← AggregateScanner.new seg aggColumns
  let agg ← agg.scan build predicate
  return agg.results

/-! ### One fold -/

namespace AggregateResult

theorem count_foldl (data : List Int64Bits) (r : AggregateResult) :
    (data.foldl add r).count = r.count + BitVec.ofNat 64 data.length := by
  induction data generalizing r with
  | nil => simp
  | cons x rest ih =>
    rw [List.foldl_cons, ih, List.length_cons, BitVec.ofNat_add]
    show r.count + 1 + _ = _
    ac_rfl

theorem min_foldl (data : List Int64Bits) (r : AggregateResult) :
    (data.foldl add r).min = data.foldl stdMin r.min := (List.foldl_hom AggregateResult.min fun _ _ => rfl).symm

theorem max_foldl (data : List Int64Bits) (r : AggregateResult) :
    (data.foldl add r).max = data.foldl stdMax r.max := (List.foldl_hom AggregateResult.max fun _ _ => rfl).symm

/-- The number of the values and, if there are any, the least and the greatest of them. -/
structure Summarizes (r : AggregateResult) (values : List Int) : Prop where
  count : r.count.toInt = values.length
  min : values ≠ [] → IsLeast {v | v ∈ values} r.min.toInt
  max : values ≠ [] → IsGreatest {v | v ∈ values} r.max.toInt

theorem summarizes_foldl {data : List Int64Bits} (hlen : data.length < 2 ^ 63) :
    (data.foldl add {}).Summarizes (data.map BitVec.toInt) := by
  have hlow : ∀ x : Int64Bits, (BitVec.intMin 64).toInt ≤ x.toInt := fun x => BitVec.le_toInt x
  have hhigh : ∀ x : Int64Bits, x.toInt ≤ (BitVec.intMax 64).toInt := by
    intro x
    have hlt := BitVec.toInt_lt (x := x)
    rw [show (BitVec.intMax 64).toInt = 2 ^ 63 - 1 by decide]
    omega
  have hless : ∀ a b : Int64Bits, a.slt b = true ↔ a.toInt < b.toInt := fun a b => BitVec.slt_iff_toInt_lt
  refine ⟨?_, fun hne => ?_, fun hne => ?_⟩
  · have hcount : (BitVec.ofNat 64 data.length).toNat = data.length := toNat_ofNat_of_lt (by omega)
    have hzero : ({} : AggregateResult).count + BitVec.ofNat 64 data.length = BitVec.ofNat 64 data.length :=
      BitVec.zero_add _
    rw [count_foldl, hzero, List.length_map, BitVec.toInt_eq_toNat_of_lt (by omega), hcount]
  · have hmin : PicksLesser BitVec.toInt stdMin := .of_ite fun a x => by
      simp only [stdMin, hless]
    rw [min_foldl]
    exact hmin.isLeast_foldl hhigh fun hnil => hne (by rw [hnil]; rfl)
  · have hmax : PicksLesser (fun x => OrderDual.toDual (BitVec.toInt x)) stdMax := .of_ite fun a x => by
      simp only [stdMax, hless, OrderDual.toDual_lt_toDual]
    rw [max_foldl]
    exact hmax.isLeast_foldl (a := BitVec.intMin 64) hlow fun hnil => hne (by rw [hnil]; rfl)

end AggregateResult

/-! ### The calls -/

/-- The memory of column `c` has as many 64-bit integers as the call has rows. -/
def Batch.Readable (b : Batch) (c : Nat) : Prop :=
  ∃ memory, b.columns[c]? = some memory ∧ 8 * b.count ≤ memory.length

/-- What the callback takes for the values of column `c`. -/
def Batch.int64s (b : Batch) (c : Nat) : List Int64Bits := (loadWords 8 b.count (b.columns.getD c [])).getD []

section Calls
variable {aggColumns : List Nat} {g : Nat → AggregateResult} {results : List AggregateResult}

/-- One call, from results that depend on the column only. -/
theorem output_eq_ok {b : Batch} : AggregateScanner.output aggColumns (aggColumns.map g) b = .ok results ↔
    (∀ c ∈ aggColumns, b.Readable c) ∧
      results = aggColumns.map fun c => (b.int64s c).foldl AggregateResult.add (g c) := by
  have hone : ∀ (c : Nat) (r : AggregateResult), (do
      let memory ← orFault .outOfBounds b.columns[c]?
      let data ← orFault .outOfBounds (loadWords 8 b.count memory)
      return data.foldl AggregateResult.add (g c) : Outcome AggregateResult) = .ok r ↔
        b.Readable c ∧ (b.int64s c).foldl AggregateResult.add (g c) = r := by
    intro c r
    rw [Batch.Readable, Batch.int64s, List.getD_eq_getElem?_getD]
    cases b.columns[c]? with
    | none => simp
    | some memory =>
      by_cases hroom : 8 * b.count ≤ memory.length
      · obtain ⟨data, hdata⟩ := exists_loadWords hroom
        simp [hdata, hroom]
      · have hnone : loadWords 8 b.count memory = none := by
          cases hdata : loadWords 8 b.count memory with
          | none => rfl
          | some data => exact absurd (le_length_of_loadWords hdata) hroom
        simp [hnone, hroom]
  have hzip : aggColumns.zip (aggColumns.map g) = aggColumns.map fun c => (c, g c) := by
    have hboth := List.zip_map' (f := id) (g := g) (l := aggColumns)
    rwa [List.map_id] at hboth
  rw [AggregateScanner.output, hzip, mapM_eq_ok, List.forall₂_map_left_iff]
  simp only [hone]
  rw [List.forall₂_and_left, ← List.forall₂_map_left_iff (R := Eq), List.forall₂_eq_eq_eq]
  exact and_congr_right fun _ => eq_comm

/-- All calls, one after the other. -/
theorem foldlM_output_eq_ok {batches : List Batch} :
    batches.foldlM (AggregateScanner.output aggColumns) (aggColumns.map g) = .ok results ↔
      (∀ b ∈ batches, ∀ c ∈ aggColumns, b.Readable c) ∧
        results = aggColumns.map fun c => (batches.flatMap (·.int64s c)).foldl AggregateResult.add (g c) := by
  induction batches generalizing g with
  | nil => simp [eq_comm]
  | cons b rest ih =>
    rw [List.foldlM_cons, bind_eq_ok]
    simp only [output_eq_ok]
    constructor
    · intro h
      obtain ⟨middle, ⟨hb, rfl⟩, hrest⟩ := h
      obtain ⟨hrest', rfl⟩ := ih.mp hrest
      refine ⟨List.forall_mem_cons.mpr ⟨hb, hrest'⟩, List.map_congr_left fun c _ => ?_⟩
      rw [List.flatMap_cons, List.foldl_append]
    · intro h
      obtain ⟨hall, rfl⟩ := h
      obtain ⟨hb, hrest⟩ := List.forall_mem_cons.mp hall
      refine ⟨_, ⟨hb, rfl⟩, ih.mpr ⟨hrest, List.map_congr_left fun c _ => ?_⟩⟩
      rw [List.flatMap_cons, List.foldl_append]

end Calls

/-! ### Calls that deliver rows -/

section Delivered
variable {columns : List Column} {batches : List Batch} {rows : List Nat} {c : Nat}

/-- The memory of a column of the batch. -/
theorem Delivers.memory (h : Delivers columns batches rows) {b : Batch} (hb : b ∈ batches) :
    (columns[c]? = none → b.columns[c]? = none) ∧ ∀ col, columns[c]? = some col →
      ∃ memory, b.columns[c]? = some memory ∧ memory.length = col.type.typeSize * b.count := by
  have hshape := congrArg (fun l : List Nat => l[c]?) (h.shape b hb)
  simp only [List.getElem?_map] at hshape
  constructor
  · intro hnone
    rw [hnone] at hshape
    exact Option.map_eq_none_iff.mp hshape
  · intro col hcol
    rw [hcol] at hshape
    exact Option.map_eq_some_iff.mp hshape

/-- Only the memory of a 64-bit column has enough bytes. -/
theorem Delivers.readable_iff (h : Delivers columns batches rows)
    (hint : ∀ col ∈ columns, col.type.isInteger = true) {b : Batch} (hb : b ∈ batches) (hpos : 0 < b.count) :
    b.Readable c ↔ ∃ col, columns[c]? = some col ∧ col.type = .int64 := by
  obtain ⟨hnone, hsome⟩ := h.memory (c := c) hb
  cases hcol : columns[c]? with
  | none => simp [Batch.Readable, hnone hcol]
  | some col =>
    obtain ⟨memory, hmemory, hlen⟩ := hsome col hcol
    have hreadable : b.Readable c ↔ 8 * b.count ≤ col.type.typeSize * b.count := by
      simp [Batch.Readable, hmemory, hlen]
    rw [hreadable]
    rcases DataType.eq_of_isInteger (hint col (List.mem_of_getElem? hcol)) with htype | htype
    · simp [htype, DataType.typeSize]
      omega
    · simp [htype, DataType.typeSize]

/-- Of a 64-bit column the callback gets the values of the rows. -/
theorem Delivers.int64s (h : Delivers columns batches rows) {col : Column} (hcol : columns[c]? = some col)
    (htype : col.type = .int64) : (batches.flatMap (·.int64s c)).map BitVec.toInt =
      rows.map fun r => (col.vec.data.getD r 0).toInt := by
  obtain ⟨type, vec⟩ := col
  cases htype
  have hwords : ∀ bs : List Batch, (∀ b ∈ bs, b ∈ batches) →
      storeWords 8 (bs.flatMap (·.int64s c)) = delivered bs c := by
    intro bs hbs
    induction bs with
    | nil => rfl
    | cons b rest ih =>
      obtain ⟨memory, hmemory, hlen⟩ := (h.memory (hbs b List.mem_cons_self)).2 _ hcol
      have hlen : memory.length = 8 * b.count := hlen
      obtain ⟨data, hdata⟩ := exists_loadWords (n := 8) hlen.ge
      have hone : storeWords 8 (b.int64s c) = b.columns.getD c [] := by
        rw [Batch.int64s, List.getD_eq_getElem?_getD, hmemory, Option.getD_some, hdata, Option.getD_some,
          storeWords_loadWords hdata, ← hlen, List.take_length]
      rw [List.flatMap_cons, storeWords_append, hone, ih fun b' hb' => hbs b' (List.mem_cons_of_mem _ hb'),
        delivered, delivered, List.flatMap_cons]
  have hsame := storeWords_injective (n := 8) (by decide)
    ((hwords batches fun _ hb => hb).trans (h.values c _ hcol))
  rw [hsame]
  exact List.map_map

theorem length_int64s {b : Batch} (h : b.Readable c) : (b.int64s c).length = b.count := by
  obtain ⟨memory, hmemory, hroom⟩ := h
  obtain ⟨data, hdata⟩ := exists_loadWords hroom
  rw [Batch.int64s, List.getD_eq_getElem?_getD, hmemory, Option.getD_some, hdata, Option.getD_some,
    length_loadWords hdata]

/-- What is read where it can be, however wide the column is. -/
theorem Delivers.length_int64s (h : Delivers columns batches rows) (hread : ∀ b ∈ batches, b.Readable c) :
    (batches.flatMap (·.int64s c)).length = rows.length := by
  rw [← h.count, deliveredRows, List.length_flatMap]
  congr 1
  exact List.map_congr_left fun b hb => Scanner.length_int64s (hread b hb)

end Delivered

/-- No call is for no rows. -/
theorem SegmentScanner.scan_count_pos {build : Build} {sc sc' : SegmentScanner} {predicate : Predicate}
    {batches : List Batch} (h : sc.scan build predicate = .ok (sc', batches)) : ∀ b ∈ batches, 0 < b.count := by
  have hblock : ∀ (columns : List Column) (p p' : Progress) (block : Nat),
      (∀ b ∈ p.batches, 0 < b.count) → sc.scanBlock build predicate columns p block = .ok p' →
        ∀ b ∈ p'.batches, 0 < b.count := by
    intro columns p p' block hp h
    obtain ⟨shouldScan, -, h⟩ := bind_eq_ok.mp h
    split at h
    · cases h
      exact hp
    · obtain ⟨mightMatch, -, h⟩ := bind_eq_ok.mp h
      split at h
      · cases h
        exact hp
      · obtain ⟨⟨interp, rows⟩, -, h⟩ := bind_eq_ok.mp h
        obtain ⟨found, hfound, h⟩ := bind_eq_ok.mp h
        cases h
        intro b hb
        rcases List.mem_append.mp hb with hb | hb
        · exact hp b hb
        · obtain ⟨run, hrun, hread⟩ := exists_of_mem_mapM hfound hb
          obtain ⟨bytes, -, hread⟩ := bind_eq_ok.mp hread
          cases hread
          exact Blocks.runs_pos run hrun
  rw [SegmentScanner.scan] at h
  split at h
  · cases h
  · obtain ⟨columns, -, h⟩ := bind_eq_ok.mp h
    obtain ⟨p, hloop, h⟩ := bind_eq_ok.mp h
    cases h
    exact foldlM_preserves (fun block _ p p' => hblock columns p p' block) (by simp) hloop

/-- Without empty calls there is no call just when there is no row. -/
theorem Delivers.eq_nil_iff {columns : List Column} {batches : List Batch} {rows : List Nat}
    (h : Delivers columns batches rows) (hpos : ∀ b ∈ batches, 0 < b.count) : batches = [] ↔ rows = [] := by
  have hcount := h.count
  rw [deliveredRows] at hcount
  constructor
  · rintro rfl
    exact List.eq_nil_of_length_eq_zero hcount.symm
  · rintro rfl
    refine List.eq_nil_iff_forall_not_mem.mpr fun b hb => ?_
    rw [List.length_nil, List.sum_eq_zero_iff] at hcount
    exact absurd (hcount _ (List.mem_map_of_mem hb)) (hpos b hb).ne'

end ColumnarStore.Scanner

/-! ### What a segment's aggregates come to -/

namespace ColumnarStore.IntactSegment
open Foundation Predicates Scanner

variable {s : IntactSegment} {chain : Chain}

/-- For each aggregation column the number of the matching rows, and their least and
greatest value in the column if there are any. -/
def AggregatesMatch (build : Build) (s : IntactSegment) (chain : Chain) (aggColumns : List Nat) : Prop :=
  ∃ results, aggregateSegment build s.segment aggColumns chain.predicate = .ok results ∧
    List.Forall₂ (fun c r => AggregateResult.Summarizes r ((s.matching chain).map fun row => s.row row c))
      aggColumns results

/-- Cutting the constant of a chain of one leaf to the type of the column changes no row. -/
def KeepsConstant (s : IntactSegment) (chain : Chain) : Prop :=
  chain.tail = [] → ∀ col, s.columns[chain.head.column]? = some col → ∀ r, r < s.numRows →
    chain.head.op.holds (s.row r chain.head.column) (chain.head.cut col.type).toInt =
      chain.head.holds (s.row r)

/-- The rows a scan of the chain finds. -/
def kept (s : IntactSegment) (chain : Chain) (r : Nat) : Bool :=
  match chain.tail, s.columns[chain.head.column]? with
  | [], some col => chain.head.op.holds (s.row r chain.head.column) (chain.head.cut col.type).toInt
  | _, _ => chain.eval (s.row r)

theorem selects_kept (build : Build) (context : ScanContext)
    (hint : ∀ col ∈ s.columns, col.type.isInteger = true) (hcolumns : s.HasColumns chain) :
    Selects build s (s.scanner context) chain.predicate (s.kept chain) := by
  by_cases hmany : chain.tail = []
  · obtain ⟨col, hcol⟩ : ∃ col, s.columns[chain.head.column]? = some col :=
      ⟨_, List.getElem?_eq_getElem (hcolumns _ List.mem_cons_self)⟩
    have hkept : s.kept chain = fun r =>
        chain.head.op.holds (s.row r chain.head.column) (chain.head.cut col.type).toInt := by
      funext r
      rw [kept, hmany, hcol]
    rw [hkept]
    exact selects_leaf hcol (hint col (List.mem_of_getElem? hcol)) build rfl hmany
  · have hkept : s.kept chain = fun r => chain.eval (s.row r) := by
      funext r
      obtain ⟨link, rest, hcons⟩ := List.exists_cons_of_ne_nil hmany
      rw [kept, hcons]
    rw [hkept]
    exact selects_chain build hcolumns hmany

/-- Lists filtered by comparisons with two bounds are as long only if they are the same. -/
theorem filter_eq_of_length {op : Comparison} (hop : op = .lt ∨ op = .gt) (f : Nat → Int) (a b : Int) (l : List Nat)
    (hlen : (l.filter fun r => op.holds (f r) a).length = (l.filter fun r => op.holds (f r) b).length) :
    (l.filter fun r => op.holds (f r) a) = l.filter fun r => op.holds (f r) b := by
  have hnested : (∀ r, op.holds (f r) a = true → op.holds (f r) b = true) ∨
      ∀ r, op.holds (f r) b = true → op.holds (f r) a = true := by
    rcases hop with rfl | rfl
    · rcases le_total a b with hle | hle
      · exact .inl fun r h => decide_eq_true ((of_decide_eq_true h).trans_le hle)
      · exact .inr fun r h => decide_eq_true ((of_decide_eq_true h).trans_le hle)
    · rcases le_total a b with hle | hle
      · exact .inr fun r h => decide_eq_true (hle.trans_lt (of_decide_eq_true h))
      · exact .inl fun r h => decide_eq_true (hle.trans_lt (of_decide_eq_true h))
  rcases hnested with hsub | hsub
  · exact (List.monotone_filter_right l hsub).eq_of_length hlen
  · exact ((List.monotone_filter_right l hsub).eq_of_length hlen.symm).symm

/-- The scan finds the matching rows exactly when the cut constant is as good. -/
theorem kept_eq_matching_iff (hnots : chain.headNots = 0) (hcolumns : s.HasColumns chain) :
    (List.range s.numRows).filter (s.kept chain) = s.matching chain ↔ s.KeepsConstant chain := by
  have hsame : (List.range s.numRows).filter (s.kept chain) = s.matching chain ↔
      ∀ r, r < s.numRows → s.kept chain r = chain.eval (s.row r) := by
    constructor
    · intro heq r hr
      have hmem : r ∈ (List.range s.numRows).filter (s.kept chain) ↔ r ∈ s.matching chain := by rw [heq]
      simp only [matching, List.mem_filter, List.mem_range, hr, true_and] at hmem
      exact Bool.eq_iff_iff.mpr hmem
    · intro hall
      exact List.filter_congr fun r hr => hall r (List.mem_range.mp hr)
  rw [hsame]
  by_cases hmany : chain.tail = []
  · obtain ⟨col, hcol⟩ : ∃ col, s.columns[chain.head.column]? = some col :=
      ⟨_, List.getElem?_eq_getElem (hcolumns _ List.mem_cons_self)⟩
    have heval : ∀ r, chain.eval (s.row r) = chain.head.holds (s.row r) := by
      intro r
      rw [Chain.eval, hmany, hnots]
      rfl
    have hkept : ∀ r, s.kept chain r =
        chain.head.op.holds (s.row r chain.head.column) (chain.head.cut col.type).toInt := by
      intro r
      rw [kept, hmany, hcol]
    simp only [KeepsConstant, hmany, hcol, Option.some.injEq, forall_eq', forall_const, heval, hkept]
  · obtain ⟨link, rest, hcons⟩ := List.exists_cons_of_ne_nil hmany
    simp [KeepsConstant, kept, hcons]

/-- A chain that compares with its first leaf by `Lt` or `Gt`, on a segment without zone
maps, keeps as many rows as match only if it keeps those. -/
theorem kept_eq_matching_of_length (hop : chain.head.op = .lt ∨ chain.head.op = .gt) (hnots : chain.headNots = 0)
    (hlen : ((List.range s.numRows).filter (s.kept chain)).length = (s.matching chain).length) :
    (List.range s.numRows).filter (s.kept chain) = s.matching chain := by
  by_cases hmany : chain.tail = []
  · cases hcol : s.columns[chain.head.column]? with
    | none =>
      refine List.filter_congr fun r _ => ?_
      rw [kept, hmany, hcol]
    | some col =>
      have heval : (fun r => chain.eval (s.row r)) = fun r =>
          chain.head.op.holds (s.row r chain.head.column) chain.head.constant.toInt := by
        funext r
        rw [Chain.eval, hmany, hnots]
        rfl
      have hkept : s.kept chain = fun r =>
          chain.head.op.holds (s.row r chain.head.column) (chain.head.cut col.type).toInt := by
        funext r
        rw [kept, hmany, hcol]
      rw [matching, heval, hkept] at hlen ⊢
      exact filter_eq_of_length hop _ _ _ _ hlen
  · obtain ⟨link, rest, hcons⟩ := List.exists_cons_of_ne_nil hmany
    refine List.filter_congr fun r _ => ?_
    rw [kept, hcons]

/-- A segment without zone maps is scanned whole, whatever is pruned, when the first leaf
is no equality. -/
theorem checks_unmapped (hzones : ∀ zm ∈ s.zoneMaps, zm.entries = []) (hop : chain.head.op ≠ .eq)
    (hcolumns : s.HasColumns chain) (context : ScanContext) :
    Checks (s.scanner context) chain.predicate (fun _ => true) true := by
  obtain ⟨col, hcol⟩ : ∃ col, s.columns[chain.head.column]? = some col :=
    ⟨_, List.getElem?_eq_getElem (hcolumns _ List.mem_cons_self)⟩
  have hunmapped : (s.zoneMaps.getD chain.head.column {}).entries = [] := by
    rw [List.getD_eq_getElem?_getD]
    cases hzm : s.zoneMaps[chain.head.column]? with
    | none => rfl
    | some zm => exact hzones zm (List.mem_of_getElem? hzm)
  refine ⟨fun block => ?_, ?_⟩
  · rw [zoneMapAllows_chain hcol, zoneMapKeeps_unmapped hunmapped, Bool.or_true]
  · rw [bloomFilterAllows_chain hcol, bloomFilterKeeps, if_neg hop]
    split <;> rfl

/-- What the aggregates of a segment are computed from. -/
theorem aggregateSegment_spec (build : Build) (hint : ∀ col ∈ s.columns, col.type.isInteger = true)
    (hzones : ∀ zm ∈ s.zoneMaps, zm.entries = []) (hop : chain.head.op ≠ .eq) (hcolumns : s.HasColumns chain)
    (aggColumns : List Nat) :
    ∃ batches, Delivers s.columns batches ((List.range s.numRows).filter (s.kept chain)) ∧
      (∀ b ∈ batches, 0 < b.count) ∧ ∀ results,
        aggregateSegment build s.segment aggColumns chain.predicate = .ok results ↔
          (∀ b ∈ batches, ∀ c ∈ aggColumns, b.Readable c) ∧
            results = aggColumns.map fun c => (batches.flatMap (·.int64s c)).foldl AggregateResult.add {} := by
  have hne := columns_ne_nil hcolumns
  obtain ⟨batches, hscan, hdelivers⟩ := scan_spec (show (s.scanner {}).segment = s.segment from rfl)
    (Nat.succ_pos _) le_rfl (numRows_lt_of_ne_nil hne) (checks_unmapped hzones hop hcolumns {})
    (selects_kept build {} hint hcolumns)
  refine ⟨batches, hdelivers, SegmentScanner.scan_count_pos hscan, fun results => ?_⟩
  have hnew : AggregateScanner.new s.segment aggColumns =
      .ok {scanner := s.scanner {}, aggColumns, results := aggColumns.map fun _ => {}} := by
    rw [AggregateScanner.new, s.new_eq, bind_ok, List.map_const']
    rfl
  rw [← foldlM_output_eq_ok, aggregateSegment, hnew, bind_ok, AggregateScanner.scan, hscan, bind_ok]
  show (do
    let agg ← (do
      let results ← batches.foldlM (AggregateScanner.output aggColumns) (aggColumns.map fun _ => {})
      return _ : Outcome AggregateScanner)
    return agg.results) = .ok results ↔ _
  cases batches.foldlM (AggregateScanner.output aggColumns) (aggColumns.map fun _ => {}) with
  | error e => exact Iff.rfl
  | ok found => exact Iff.rfl

/-- Aggregation columns of 64 bits. -/
def AllInt64 (s : IntactSegment) (aggColumns : List Nat) : Prop :=
  ∀ c ∈ aggColumns, ∃ col, s.columns[c]? = some col ∧ col.type = .int64

/-- **The aggregates are those of the matching rows exactly when there is none to compute,
or the constant of a single leaf survives its cut and no row matches or all the columns
are of 64 bits.** -/
theorem aggregates_match_iff (build : Build) (s : IntactSegment)
    (hint : ∀ col ∈ s.columns, col.type.isInteger = true) (hzones : ∀ zm ∈ s.zoneMaps, zm.entries = [])
    (chain : Chain) (hcolumns : s.HasColumns chain) (hnots : chain.headNots = 0)
    (hop : chain.head.op = .lt ∨ chain.head.op = .gt) (aggColumns : List Nat) :
    s.AggregatesMatch build chain aggColumns ↔
      aggColumns = [] ∨ (s.KeepsConstant chain ∧ (s.matching chain = [] ∨ s.AllInt64 aggColumns)) := by
  have hne : chain.head.op ≠ .eq := by
    intro heq
    simp [heq] at hop
  obtain ⟨batches, hdelivers, hpos, hresults⟩ := aggregateSegment_spec build hint hzones hne hcolumns aggColumns
  rw [← kept_eq_matching_iff hnots hcolumns]
  have hsmall : ((List.range s.numRows).filter (s.kept chain)).length < 2 ^ 63 := by
    have hrows := numRows_lt_of_ne_nil (columns_ne_nil hcolumns)
    have hle := List.length_filter_le (s.kept chain) (List.range s.numRows)
    rw [List.length_range] at hle
    omega
  have hcounts : ∀ c, (∀ b ∈ batches, b.Readable c) → (batches.flatMap (·.int64s c)).length < 2 ^ 63 := by
    intro c hread
    rw [hdelivers.length_int64s hread]
    exact hsmall
  constructor
  · intro hmatch
    obtain ⟨results, hok, hsummaries⟩ := hmatch
    obtain ⟨hread, rfl⟩ := (hresults results).mp hok
    cases aggColumns with
    | nil => exact .inl rfl
    | cons c rest =>
      rw [List.forall₂_map_right_iff, List.forall₂_same] at hsummaries
      have hc : ∀ b ∈ batches, b.Readable c := fun b hb => hread b hb c List.mem_cons_self
      have hlen : ((List.range s.numRows).filter (s.kept chain)).length = (s.matching chain).length := by
        have hcount := (hsummaries c List.mem_cons_self).count
        rw [(AggregateResult.summarizes_foldl (hcounts c hc)).count, List.length_map, List.length_map,
          hdelivers.length_int64s hc] at hcount
        exact Int.ofNat_inj.mp hcount
      have hsame := kept_eq_matching_of_length hop hnots hlen
      refine .inr ⟨hsame, ?_⟩
      by_cases hnone : s.matching chain = []
      · exact .inl hnone
      · rw [hsame] at hdelivers
        have hbatches : batches ≠ [] := mt (hdelivers.eq_nil_iff hpos).mp hnone
        obtain ⟨b, hb⟩ := List.exists_mem_of_ne_nil batches hbatches
        exact .inr fun c' hc' => (hdelivers.readable_iff hint hb (hpos b hb)).mp (hread b hb c' hc')
  · intro hgood
    have hcolumn : ∀ c ∈ aggColumns, (∀ b ∈ batches, b.Readable c) ∧
        (batches.flatMap (·.int64s c)).map BitVec.toInt = (s.matching chain).map fun row => s.row row c := by
      intro c hc
      obtain ⟨hsame, hrows⟩ := hgood.resolve_left (List.ne_nil_of_mem hc)
      rw [hsame] at hdelivers
      rcases hrows with hnone | hwide
      · rw [(hdelivers.eq_nil_iff hpos).mpr hnone, hnone]
        exact ⟨fun b hb => (List.not_mem_nil hb).elim, rfl⟩
      · obtain ⟨col, hcol, htype⟩ := hwide c hc
        refine ⟨fun b hb => (hdelivers.readable_iff hint hb (hpos b hb)).mpr ⟨col, hcol, htype⟩, ?_⟩
        rw [hdelivers.int64s hcol htype]
        refine List.map_congr_left fun r _ => ?_
        rw [row, cell_eq hcol, Native.toInt_toInt64 (hint col (List.mem_of_getElem? hcol))]
    refine ⟨_, (hresults _).mpr ⟨fun b hb c hc => (hcolumn c hc).1 b hb, rfl⟩, ?_⟩
    rw [List.forall₂_map_right_iff, List.forall₂_same]
    intro c hc
    obtain ⟨hread, hvalues⟩ := hcolumn c hc
    rw [← hvalues]
    exact AggregateResult.summarizes_foldl (hcounts c hread)

/-- The second column of the sample, over the rows with more than 2 in the first. -/
theorem sample_aggregates_match :
    sample.AggregatesMatch .scalar {head := ⟨.gt, .int32, 0, 2⟩} [1] ↔
      [1] = [] ∨ (sample.KeepsConstant {head := ⟨.gt, .int32, 0, 2⟩} ∧
        (sample.matching {head := ⟨.gt, .int32, 0, 2⟩} = [] ∨ sample.AllInt64 [1])) :=
  aggregates_match_iff .scalar sample (by decide) (by decide) {head := ⟨.gt, .int32, 0, 2⟩} (by decide) rfl
    (.inr rfl) [1]

/-- The first column of the sample has four bytes for each value. -/
theorem sample_int32_not_aggregated :
    ¬ sample.AggregatesMatch .scalar {head := ⟨.gt, .int32, 0, 2⟩} [0] := by
  intro h
  obtain ⟨results, hok, -⟩ := h
  have hfault : (aggregateSegment .scalar sample.segment [0]
      (Chain.predicate {head := ⟨.gt, .int32, 0, 2⟩})).isOk = false := by decide +kernel
  rw [hok] at hfault
  cases hfault

end ColumnarStore.IntactSegment
