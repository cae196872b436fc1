import ColumnarStore.Scanner.Scan

/-! What a scan hands out.

The output function is called with runs of rows, each column as raw bytes. Behind each
other the calls amount to a sequence of rows (`Delivers`), and two scans hand out the
same rows when every column comes out the same (`SameRows`). -/
namespace ColumnarStore.Scanner
open Foundation Blocks

/-- What the calls hand out of column `c`. -/
def delivered (batches : List Batch) (c : Nat) : List UInt8 := batches.flatMap fun b => b.columns.getD c []

/-- How many rows the calls hand out. -/
def deliveredRows (batches : List Batch) : Nat := (batches.map Batch.count).sum

/-- The calls hand out the given rows of the columns, in that order. -/
structure Delivers (columns : List Column) (batches : List Batch) (rows : List Nat) : Prop where
  /-- Each call has as many values of every column as it says. -/
  shape : ∀ b ∈ batches, b.columns.map List.length = columns.map fun col => col.type.typeSize * b.count
  count : deliveredRows batches = rows.length
  values : ∀ (c : Nat) (col : Column), columns[c]? = some col →
    delivered batches c = storeWords col.type.typeSize (rows.map fun r => col.vec.data.getD r 0)

def SameRows (a b : List Batch) : Prop :=
  deliveredRows a = deliveredRows b ∧ ∀ c, delivered a c = delivered b c

/-! ### Deliveries behind each other -/

theorem deliveredRows_append (a b : List Batch) : deliveredRows (a ++ b) = deliveredRows a + deliveredRows b := by
  rw [deliveredRows, List.map_append, List.sum_append]
  rfl

theorem Delivers.nil (columns : List Column) : Delivers columns [] [] :=
  ⟨fun _ hb => (List.not_mem_nil hb).elim, rfl, fun _ _ _ => rfl⟩

theorem Delivers.append {columns : List Column} {a b : List Batch} {rows rows' : List Nat}
    (ha : Delivers columns a rows) (hb : Delivers columns b rows') :
    Delivers columns (a ++ b) (rows ++ rows') := by
  refine ⟨fun x hx => (List.mem_append.mp hx).elim (ha.shape x) (hb.shape x), ?_, fun c col hcol => ?_⟩
  · rw [deliveredRows_append, ha.count, hb.count, List.length_append]
  · have hvalues := ha.values c col hcol
    have hvalues' := hb.values c col hcol
    rw [delivered] at hvalues hvalues' ⊢
    rw [List.flatMap_append, hvalues, hvalues', List.map_append, storeWords_append]

/-- Columns that are not there are never handed out. -/
theorem Delivers.absent {columns : List Column} {batches : List Batch} {rows : List Nat}
    (h : Delivers columns batches rows) {c : Nat} (hc : columns[c]? = none) : delivered batches c = [] := by
  refine List.flatMap_eq_nil_iff.mpr fun b hb => ?_
  have hlen := congrArg List.length (h.shape b hb)
  rw [List.length_map, List.length_map] at hlen
  have hout := List.getElem?_eq_none_iff.mp hc
  rw [List.getD_eq_getElem?_getD, List.getElem?_eq_none (by omega)]
  rfl

/-- The same rows of the same columns, however they are cut into calls. -/
theorem Delivers.sameRows {columns : List Column} {a b : List Batch} {rows : List Nat}
    (ha : Delivers columns a rows) (hb : Delivers columns b rows) : SameRows a b := by
  refine ⟨ha.count.trans hb.count.symm, fun c => ?_⟩
  cases hcol : columns[c]? with
  | none => rw [ha.absent hcol, hb.absent hcol]
  | some col => rw [ha.values c col hcol, hb.values c col hcol]

/-- Leaving rows out of a selection shows. -/
theorem Delivers.sameRows_filter {columns : List Column} {a b : List Batch} {rows : List Nat}
    {p : Nat → Bool} (ha : Delivers columns a (rows.filter p)) (hb : Delivers columns b rows) :
    SameRows a b ↔ ∀ r ∈ rows, p r = true := by
  constructor
  · intro h
    have hlen : (rows.filter p).length = rows.length := ha.count.symm.trans (h.1.trans hb.count)
    exact List.length_filter_eq_length_iff.mp hlen
  · intro h
    rw [List.filter_eq_self.mpr h] at ha
    exact ha.sameRows hb

/-! ### Runs -/

section Runs
variable {s : IntactSegment}

theorem take_drop_eq_map {t : DataType} (data : List (Native t)) {first n : Nat}
    (h : first + n ≤ data.length) :
    (data.drop first).take n = (List.range' first n).map fun r => data.getD r 0 := by
  refine List.ext_getElem ?_ fun i hi hi' => ?_
  · rw [List.length_take, List.length_drop, List.length_map, List.length_range']
    omega
  · have hin : first + i < data.length := by
      rw [List.length_take, List.length_drop] at hi
      omega
    rw [List.getElem_take, List.getElem_drop, List.getElem_map, List.getElem_range', Nat.one_mul,
      List.getD_eq_getElem _ _ hin]

/-- A run within the segment is read from every column. -/
theorem readRun_ok (blockOffset : Nat) (run : Nat × Nat) (h : blockOffset + run.1 + run.2 ≤ s.numRows) :
    ∃ batch, SegmentScanner.readRun s.columns blockOffset run = .ok batch ∧
      Delivers s.columns [batch] ((List.range' run.1 run.2).map (blockOffset + ·)) := by
  obtain ⟨first, n⟩ := run
  dsimp only at h ⊢
  have hread : ∀ col ∈ s.columns, col.readValues (blockOffset + first) n =
      .ok (storeWords col.type.typeSize ((col.vec.data.drop (blockOffset + first)).take n)) := by
    intro col hcol
    have hfull : col.vec.data.length = s.numRows := s.full col hcol
    exact if_pos (by rw [hfull]; exact h)
  refine ⟨_, by rw [SegmentScanner.readRun, mapM_ok hread]; rfl, ?_, ?_, fun c col hcol => ?_⟩
  · intro b hb
    rw [List.mem_singleton.mp hb, List.map_map]
    refine List.map_congr_left fun col hcol => ?_
    have hfull : col.vec.data.length = s.numRows := s.full col hcol
    show (storeWords _ _).length = _
    rw [length_storeWords, List.length_take, List.length_drop]
    congr 1
    show min n _ = n
    omega
  · simp [deliveredRows]
  · have hfull : col.vec.data.length = s.numRows := s.full col (List.mem_of_getElem? hcol)
    rw [delivered, List.flatMap_singleton, List.getD_eq_getElem?_getD, List.getElem?_map, hcol]
    show storeWords _ ((col.vec.data.drop (blockOffset + first)).take n) = _
    rw [take_drop_eq_map _ (by rw [hfull]; exact h), List.map_add_range']

/-- Rows of a block, cut into runs, are delivered. -/
theorem deliver_runs {blockOffset count : Nat} (hblock : blockOffset + count ≤ s.numRows)
    {rows : List Nat} (hrows : ∀ r ∈ rows, r < count) :
    ∃ batches, (runs kMaxRun rows).mapM (SegmentScanner.readRun s.columns blockOffset) = .ok batches ∧
      Delivers s.columns batches (rows.map (blockOffset + ·)) := by
  have hall : ∀ rs : List (Nat × Nat), (∀ run ∈ rs, run.1 + run.2 ≤ count) →
      ∃ batches, rs.mapM (SegmentScanner.readRun s.columns blockOffset) = .ok batches ∧
        Delivers s.columns batches
          ((rs.flatMap fun run => List.range' run.1 run.2).map (blockOffset + ·)) := by
    intro rs
    induction rs with
    | nil => exact fun _ => ⟨[], rfl, .nil _⟩
    | cons run rest ih =>
      intro hrs
      have hrun := hrs run List.mem_cons_self
      obtain ⟨batch, hread, hbatch⟩ := readRun_ok (s := s) blockOffset run (by omega)
      obtain ⟨batches, hrest, hbatches⟩ := ih fun run' h => hrs run' (List.mem_cons_of_mem _ h)
      refine ⟨batch :: batches, by rw [List.mapM_cons, hread, hrest]; rfl, ?_⟩
      rw [List.flatMap_cons, List.map_append]
      exact hbatch.append hbatches
  obtain ⟨batches, hok, hdelivers⟩ := hall (runs kMaxRun rows) (run_end_le hrows)
  rw [flatMap_runs] at hdelivers
  exact ⟨batches, hok, hdelivers⟩

end Runs

end ColumnarStore.Scanner
