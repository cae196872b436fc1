import ColumnarStore.Segment.Layout

/-! What a sequence of calls leaves in a file.

The calls themselves say what a segment holds: the columns in the order they were
added, and for each column index the zone map and the filter added to it last.
`run_written` is the writer's side of this, `written_zoneMap` and `written_bloomFilter`
the reader's. -/
namespace ColumnarStore
open Foundation Encoding

/-! ### The history of a writer -/

/-- What an `AddColumn` call is given. -/
structure AddedColumn where
  type : DataType
  values : List (Native type)
  nulls : List Bool
  encoding : EncodingType

def WriterCall.column? : WriterCall → Option AddedColumn
  | addColumn t values nulls encoding => some ⟨t, values, nulls, encoding⟩
  | _ => none

/-- The columns in the order they were added. -/
def addedColumns (calls : List WriterCall) : List AddedColumn := calls.filterMap WriterCall.column?

def WriterCall.zoneMapAfter (i : Nat) (prior : ZoneMap) : WriterCall → ZoneMap
  | addZoneMap colIdx zm => if colIdx = i then zm else prior
  | _ => prior

/-- The zone map last added to column `i`. -/
def zoneMapOf (calls : List WriterCall) (i : Nat) : ZoneMap :=
  calls.foldl (WriterCall.zoneMapAfter i) {}

def WriterCall.bloomFilterAfter (i : Nat) (prior : BloomFilter) : WriterCall → BloomFilter
  | addBloomFilter colIdx bf => if colIdx = i then bf else prior
  | _ => prior

/-- The filter last added to column `i`. -/
def bloomFilterOf (calls : List WriterCall) (i : Nat) : BloomFilter :=
  calls.foldl (WriterCall.bloomFilterAfter i) .empty

/-! ### What the writer keeps -/

/-- The entry of the writer's arrays that a column became. -/
structure AddedColumn.WrittenAs (a : AddedColumn) (c : WriterColumn) : Prop where
  type : c.stats.type = a.type
  encoding : c.encoding = a.encoding
  buffer : createEncoder a.encoding a.type (storeWords a.type.typeSize a.values) a.values.length =
    .ok c.buffer

structure SegmentWriter.Written (calls : List WriterCall) (w : SegmentWriter) : Prop where
  columns : List.Forall₂ AddedColumn.WrittenAs (addedColumns calls) w.columns
  rowCount : w.rowCount = (addedColumns calls).foldl (fun rows a => max rows a.values.length) 0
  zoneMaps : ∀ i, w.zoneMaps.getD i {} = zoneMapOf calls i
  bloomFilters : ∀ i, w.bloomFilters.getD i .empty = bloomFilterOf calls i

/-- Writing at an index of an array that first grows to hold it. -/
theorem getD_set_grown {α : Type} (xs : List α) (idx i : Nat) (x fill : α) :
    ((if xs.length ≤ idx then resized xs (idx + 1) fill else xs).set idx x).getD i fill =
      if idx = i then x else xs.getD i fill := by
  have hgrown : ∀ j, (if xs.length ≤ idx then resized xs (idx + 1) fill else xs).getD j fill =
      xs.getD j fill := by
    intro j
    split
    · next hshort =>
      rw [resized, List.take_of_length_le (by omega)]
      simp only [List.getD_eq_getElem?_getD, List.getElem?_append, List.getElem?_replicate]
      by_cases hj : j < xs.length
      · rw [if_pos hj]
      · rw [if_neg hj, List.getElem?_eq_none (by omega)]
        split <;> rfl
    · rfl
  have hin : idx < (if xs.length ≤ idx then resized xs (idx + 1) fill else xs).length := by
    split
    · simp [resized]
      omega
    · omega
  by_cases heq : idx = i
  · cases heq
    simp [List.getD_eq_getElem?_getD, hin]
  · rw [if_neg heq, ← hgrown i]
    simp [List.getD_eq_getElem?_getD, heq]

theorem columnStats_type {t : DataType} {values : List (Native t)} {nulls : List Bool}
    {stats : ColumnStats} (h : columnStats t values nulls = .ok stats) : stats.type = t := by
  cases values with
  | nil =>
    cases h
    rfl
  | cons x rest =>
    obtain ⟨bounds, -, h⟩ := bind_eq_ok.mp h
    cases h
    rfl

@[simp] theorem ColumnStats.copy_type (s : ColumnStats) : s.copy.type = s.type := by
  unfold ColumnStats.copy
  split
  · rfl
  · split <;> rfl

namespace SegmentWriter

/-- One call, said in terms of the history before it. -/
theorem Written.apply {calls : List WriterCall} {w w' : SegmentWriter} (h : Written calls w)
    (call : WriterCall) (happly : call.apply w = .ok w') : Written (calls ++ [call]) w' := by
  have hzone : ∀ i, zoneMapOf (calls ++ [call]) i = call.zoneMapAfter i (zoneMapOf calls i) := by
    intro i
    rw [zoneMapOf, List.foldl_append]
    rfl
  have hbloom : ∀ i, bloomFilterOf (calls ++ [call]) i =
      call.bloomFilterAfter i (bloomFilterOf calls i) := by
    intro i
    rw [bloomFilterOf, List.foldl_append]
    rfl
  have hadded : addedColumns (calls ++ [call]) = addedColumns calls ++ call.column?.toList := by
    rw [addedColumns, List.filterMap_append]
    cases call <;> rfl
  obtain ⟨hcolumns, hrows, hzones, hblooms⟩ := h
  have hkeep : call.column? = none → addedColumns (calls ++ [call]) = addedColumns calls := by
    intro hnone
    rw [hadded, hnone]
    exact List.append_nil _
  have hsame : call.column? = none →
      List.Forall₂ AddedColumn.WrittenAs (addedColumns (calls ++ [call])) w.columns ∧
        w.rowCount = (addedColumns (calls ++ [call])).foldl (fun rows a => max rows a.values.length) 0 := by
    intro hnone
    rw [hkeep hnone]
    exact ⟨hcolumns, hrows⟩
  cases call with
  | setTimestamp ts =>
    cases happly
    obtain ⟨hcolumns, hrows⟩ := hsame rfl
    exact ⟨hcolumns, hrows, fun i => (hzones i).trans (hzone i).symm, fun i => (hblooms i).trans (hbloom i).symm⟩
  | addColumn t values nulls encoding =>
    obtain ⟨buffer, hbuffer, happly⟩ := bind_eq_ok.mp happly
    obtain ⟨stats, hstats, happly⟩ := bind_eq_ok.mp happly
    cases happly
    refine ⟨?_, ?_, fun i => (hzones i).trans (hzone i).symm, fun i => (hblooms i).trans (hbloom i).symm⟩
    · rw [hadded]
      refine List.rel_append hcolumns (.cons ⟨?_, rfl, hbuffer⟩ .nil)
      rw [ColumnStats.copy_type, columnStats_type hstats]
    · rw [hadded, List.foldl_append, ← hrows]
      rfl
  | addZoneMap colIdx zm =>
    cases happly
    obtain ⟨hcolumns, hrows⟩ := hsame rfl
    refine ⟨hcolumns, hrows, fun i => ?_, fun i => (hblooms i).trans (hbloom i).symm⟩
    rw [hzone, ← hzones]
    exact getD_set_grown w.zoneMaps colIdx i zm {}
  | addBloomFilter colIdx bf =>
    cases happly
    obtain ⟨hcolumns, hrows⟩ := hsame rfl
    refine ⟨hcolumns, hrows, fun i => (hzones i).trans (hzone i).symm, fun i => ?_⟩
    rw [hbloom, ← hblooms]
    exact getD_set_grown w.bloomFilters colIdx i bf .empty

theorem run_written {calls : List WriterCall} {w : SegmentWriter} (h : run {} calls = .ok w) :
    Written calls w := by
  induction calls using List.reverseRecOn generalizing w with
  | nil =>
    cases h
    exact ⟨.nil, rfl, fun i => rfl, fun i => rfl⟩
  | append_singleton before call ih =>
    rw [run, List.foldlM_append] at h
    obtain ⟨w₁, h₁, h⟩ := bind_eq_ok.mp h
    obtain ⟨w₂, h₂, h⟩ := bind_eq_ok.mp h
    cases h
    exact (ih h₁).apply call h₂

/-- Calls none of which can fault are all made. -/
theorem run_ok {calls : List WriterCall}
    (h : ∀ call ∈ calls, ∀ w, ∃ w', WriterCall.apply w call = .ok w') (w : SegmentWriter) :
    ∃ w', run w calls = .ok w' := exists_foldlM_ok h w

/-! ### What the reader returns -/

section Finished
variable {calls : List WriterCall} {w : SegmentWriter} (hw : Written calls w) {i : Nat}
  {a : AddedColumn} (ha : (addedColumns calls)[i]? = some a)
include hw ha

theorem Written.column : ∃ c, w.columns[i]? = some c ∧ a.WrittenAs c := by
  obtain ⟨hlen, hall⟩ := List.forall₂_iff_get.mp hw.columns
  obtain ⟨hi, hget⟩ := List.getElem?_eq_some_iff.mp ha
  refine ⟨w.columns.get ⟨i, hlen ▸ hi⟩, List.getElem?_eq_getElem _, ?_⟩
  have h := hall i hi (hlen ▸ hi)
  rw [List.get_eq_getElem, hget] at h
  exact h

/-- The entries are those of the zone map added last, if any was. -/
theorem written_zoneMap (haddr : w.Addressable) :
    ∃ zm, w.finish.getZoneMap i = .ok zm ∧ zm.entries = (zoneMapOf calls i).entries := by
  obtain ⟨c, hc, -⟩ := hw.column ha
  rw [← hw.zoneMaps i]
  by_cases hempty : (w.zoneMaps.getD i {}).entries = []
  · exact ⟨{}, getZoneMap_empty haddr hc hempty, hempty.symm⟩
  · exact ⟨_, getZoneMap_blocks haddr hc hempty, rfl⟩

/-- The filter is the one added last, if it has words, or one nothing was added to. -/
theorem written_bloomFilter (hpointed : w.FilterPointed i) (hbits : (bloomFilterOf calls i).numBits < 2 ^ 64)
    (hhashes : (bloomFilterOf calls i).numHashes < 2 ^ 64) :
    w.finish.getBloomFilter i = .ok (bloomFilterOf calls i).restored := by
  obtain ⟨c, hc, -⟩ := hw.column ha
  rw [← hw.bloomFilters i] at hbits hhashes ⊢
  exact getBloomFilter_getD hc hpointed hbits hhashes

end Finished

end SegmentWriter

end ColumnarStore
