import ColumnarStore.Merger.SegmentMerger
import ColumnarStore.Segment.Positions

/-! Merging segments puts their columns one behind the other.

The merged segment stores a table of the first segment's types and of as many rows as
all segments have, whose columns are what was gathered (`executeMerge_stored`). What is
gathered and what is read back are the values themselves as long as every column fits
its entry; so merging concatenates whatever tables of a shape it is given exactly when
the columns of that shape fit (`concatenates_iff`). -/
namespace ColumnarStore
open Foundation Encoding

/-! ### Tables in segments -/

namespace IntegerTable

/-- The values of a column, each as its bytes. -/
def words (t : IntegerTable) (i : Nat) : List (List UInt8) :=
  match t.columns[i]? with
  | none => []
  | some c => c.values.map (storeWord c.type.typeSize)

/-- The segment is what finishing a writer that holds the table gives. -/
def StoredIn (t : IntegerTable) (seg : Segment) : Prop := ∃ w, t.WrittenBy w ∧ w.finish = seg

namespace StoredIn
variable {t : IntegerTable} {seg : Segment} (h : t.StoredIn seg)
include h

theorem numColumns : seg.numColumns = t.types.length := by
  obtain ⟨w, hw, rfl⟩ := h
  rw [types, List.length_map, hw.columns.length_eq]
  rfl

theorem numRows : seg.numRows = if t.columns = [] then 0 else t.rows := by
  obtain ⟨w, hw, rfl⟩ := h
  exact hw.rowCount

theorem numRows_of_column {i : Nat} {c : IntegerColumn} (hc : t.columns[i]? = some c) :
    seg.numRows = t.rows := by
  rw [h.numRows, if_neg (List.ne_nil_of_mem (List.mem_of_getElem? hc))]

theorem columnMeta {i : Nat} {c : IntegerColumn} (hc : t.columns[i]? = some c) :
    ∃ colMeta, seg.columnMeta i = .ok colMeta ∧ colMeta.type = c.type ∧ colMeta.encoding = c.encoding := by
  obtain ⟨w, hw, rfl⟩ := h
  obtain ⟨hlen, hget⟩ := List.forall₂_iff_get.mp hw.columns
  obtain ⟨hi, rfl⟩ := List.getElem?_eq_some_iff.mp hc
  have hwritten := hget i hi (hlen ▸ hi)
  have hwc : w.columns[i]? = some (w.columns.get ⟨i, hlen ▸ hi⟩) := List.getElem?_eq_getElem _
  exact ⟨_, (SegmentWriter.finish_get hwc).1, hwritten.type, hwritten.encoding⟩

variable (hfixed : t.FixedWidth) {i : Nat} {c : IntegerColumn} (hc : t.columns[i]? = some c)
  (hfits : ∀ j ≤ i, FitsAt t.types t.rows j)
include hfixed hc hfits

theorem getColumn : seg.getColumn i = .ok (.ofValues c.type c.values) := by
  obtain ⟨w, hw, rfl⟩ := h
  exact hw.getColumn hfixed hc hfits

theorem columnValues_eq : Merger.columnValues seg i = .ok (t.words i) := by
  rw [Merger.columnValues, h.getColumn hfixed hc hfits, words, hc]
  rfl

theorem getColumnData_eq : seg.getColumnData i 0 seg.numRows = .ok (t.words i).flatten := by
  have hrows : c.values.length = seg.numRows := by
    rw [h.numRows_of_column hc, t.equalLength c (List.mem_of_getElem? hc)]
  rw [seg.getColumnData_of_getColumn (DataType.isNumeric_of_isInteger c.integer) (h.getColumn hfixed hc hfits) hrows,
    words, hc, storeWords, List.flatMap_def]

end StoredIn

theorem words_flatten {t : IntegerTable} {i : Nat} {c : IntegerColumn} (hc : t.columns[i]? = some c) :
    (t.words i).flatten = storeWords c.type.typeSize c.values := by
  rw [words, hc, storeWords, List.flatMap_def]

theorem exists_column {t : IntegerTable} {i : Nat} {type : DataType} (htype : t.types[i]? = some type) :
    ∃ c, t.columns[i]? = some c ∧ c.type = type := by
  rwa [types, List.getElem?_map, Option.map_eq_some_iff] at htype

theorem length_words {t : IntegerTable} {i : Nat} {type : DataType} (htype : t.types[i]? = some type) :
    (t.words i).length = t.rows ∧ ∀ word ∈ t.words i, word.length = type.typeSize := by
  obtain ⟨c, hc, rfl⟩ := exists_column htype
  rw [words, hc]
  refine ⟨?_, fun word hword => ?_⟩
  · show (c.values.map _).length = t.rows
    rw [List.length_map, t.equalLength c (List.mem_of_getElem? hc)]
  · obtain ⟨x, -, rfl⟩ := List.mem_map.mp hword
    exact length_storeWord ..

end IntegerTable

/-- Words of one length can be told apart in their bytes. -/
theorem flatten_injective {n : Nat} (hn : 0 < n) {xs ys : List (List UInt8)}
    (hxs : ∀ x ∈ xs, x.length = n) (hys : ∀ y ∈ ys, y.length = n) (h : xs.flatten = ys.flatten) : xs = ys := by
  induction xs generalizing ys with
  | nil =>
    cases ys with
    | nil => rfl
    | cons y rest =>
      have hlen := hys y List.mem_cons_self
      rw [List.flatten_nil, List.flatten_cons] at h
      rw [(List.append_eq_nil_iff.mp h.symm).1, List.length_nil] at hlen
      omega
  | cons x xs ih =>
    have hx := hxs x List.mem_cons_self
    cases ys with
    | nil =>
      rw [List.flatten_nil, List.flatten_cons] at h
      rw [(List.append_eq_nil_iff.mp h).1, List.length_nil] at hx
      omega
    | cons y ys =>
      rw [List.flatten_cons, List.flatten_cons] at h
      obtain ⟨rfl, hrest⟩ := List.append_inj h (hx.trans (hys y List.mem_cons_self).symm)
      rw [ih (fun z hz => hxs z (List.mem_cons_of_mem _ hz)) (fun z hz => hys z (List.mem_cons_of_mem _ hz)) hrest]

namespace Merger

namespace SegmentMerger

/-! ### One column -/

/-- What is gathered are whole values. -/
theorem exists_gathered {type : DataType} {col : Nat} {segments : List Segment} {allData : List UInt8}
    (h : gatherColumn type col segments = .ok allData) :
    ∃ values : List (Native type), loadWords type.typeSize (allData.length / type.typeSize) allData = some values ∧
      storeWords type.typeSize values = allData ∧ values.length = (segments.map Segment.numRows).sum := by
  have hlen := length_gatherColumn h
  have hcount : allData.length / type.typeSize = (segments.map Segment.numRows).sum := by
    rw [hlen, Nat.mul_div_cancel _ type.typeSize_pos]
  have hroom : type.typeSize * (allData.length / type.typeSize) ≤ allData.length := by
    rw [hcount, hlen, Nat.mul_comm]
  obtain ⟨values, hload⟩ := exists_loadWords hroom
  have hstore : storeWords type.typeSize values = allData := by
    rw [storeWords_loadWords hload, List.take_of_length_le]
    rw [hcount, hlen, Nat.mul_comm]
  exact ⟨values, hload, hstore, (length_loadWords hload).trans hcount⟩

/-- A turn of the loop adds what was gathered, as values of the first segment's type. -/
theorem mergeColumn_eq_ok {first : Segment} {segments : List Segment} {w w' : SegmentWriter} {col : Nat}
    {colMeta : ColumnMeta} (hmeta : first.columnMeta col = .ok colMeta) (hint : colMeta.type.isInteger = true) :
    mergeColumn first segments w col = .ok w' ↔
      ∃ values : List (Native colMeta.type),
        gatherColumn colMeta.type col segments = .ok (storeWords colMeta.type.typeSize values) ∧
        w.addColumn colMeta.type values (List.replicate values.length false) colMeta.encoding = .ok w' := by
  have hadd : ∀ (t : DataType) (allData : List UInt8),
      gatherColumn t col segments = .ok allData →
      (mergeColumn.addMerged w t allData colMeta.encoding = .ok w' ↔
        ∃ values : List (Native t), allData = storeWords t.typeSize values ∧
          w.addColumn t values (List.replicate values.length false) colMeta.encoding = .ok w') := by
    intro t allData hgather
    obtain ⟨values, hload, hstore, -⟩ := exists_gathered hgather
    have hsame : values.length = allData.length / t.typeSize := length_loadWords hload
    rw [mergeColumn.addMerged, hload]
    show w.addColumn t values (List.replicate (allData.length / t.typeSize) false) colMeta.encoding = .ok w' ↔ _
    rw [← hsame]
    constructor
    · exact fun h => ⟨values, hstore.symm, h⟩
    · intro h
      obtain ⟨values', hstore', h⟩ := h
      cases storeWords_injective t.typeSize_pos (hstore.trans hstore')
      exact h
  rw [mergeColumn, hmeta, bind_ok]
  cases hgather : gatherColumn colMeta.type col segments with
  | error e => simp
  | ok allData =>
    have hadded := hadd _ _ hgather
    rw [bind_ok]
    simp only [Except.ok.injEq]
    obtain ⟨_, _, _, type, _, _, _, _, _, _⟩ := colMeta
    rcases DataType.eq_of_isInteger hint with rfl | rfl
    · exact hadded
    · exact hadded

/-- From tables whose column fits the words of the column are gathered. -/
theorem gatherColumn_stored {types : List DataType} {tables : List IntegerTable} {segments : List Segment}
    (hstored : List.Forall₂ IntegerTable.StoredIn tables segments) {i : Nat} {type : DataType}
    (htype : types[i]? = some type)
    (htables : ∀ t ∈ tables, t.types = types ∧ t.FixedWidth ∧ ∀ j ≤ i, FitsAt types t.rows j) :
    gatherColumn type i segments = .ok (tables.flatMap (·.words i)).flatten := by
  have hall : ∀ allData, segments.foldlM (fun allData seg => do
      let size := seg.numRows * type.typeSize
      let bytes ← seg.getColumnData i 0 seg.numRows
      if size < bytes.length then .error .outOfBounds
      else return allData ++ (bytes ++ List.replicate (size - bytes.length) 0)) allData =
        (.ok (allData ++ (tables.flatMap (·.words i)).flatten) : Outcome (List UInt8)) := by
    induction hstored with
    | nil => exact fun allData => congrArg Except.ok (List.append_nil allData).symm
    | @cons t seg tables segments ht _ ih =>
      intro allData
      obtain ⟨hsame, hfixed, hfits⟩ := htables t List.mem_cons_self
      obtain ⟨c, hc, rfl⟩ := IntegerTable.exists_column (hsame ▸ htype)
      have hdata := ht.getColumnData_eq hfixed hc (hsame ▸ hfits)
      have hlen : (t.words i).flatten.length = seg.numRows * c.type.typeSize := by
        rw [IntegerTable.words_flatten hc, length_storeWords, ht.numRows_of_column hc,
          t.equalLength c (List.mem_of_getElem? hc), Nat.mul_comm]
      rw [List.foldlM_cons, hdata, bind_ok, hlen, if_neg (lt_irrefl _), Nat.sub_self, List.replicate_zero,
        List.append_nil, pure_eq_ok, bind_ok, ih fun t' ht' => htables t' (List.mem_cons_of_mem _ ht'),
        List.flatMap_cons, List.flatten_append, List.append_assoc]
  exact hall []

/-! ### All columns -/

/-- Columns that were gathered, each as long as the segments together. -/
structure Gathered (segments : List Segment) (types : List DataType) (cs : List IntegerColumn)
    (w : SegmentWriter) : Prop where
  types : cs.map IntegerColumn.type = types
  wrote : WroteColumns (segments.map Segment.numRows).sum cs w.columns
  gathered : ∀ (i : Nat) (c : IntegerColumn), cs[i]? = some c →
    gatherColumn c.type i segments = .ok (storeWords c.type.typeSize c.values)
  rowCount : w.rowCount = if cs = [] then 0 else (segments.map Segment.numRows).sum
  zoneMaps : w.zoneMaps = []
  bloomFilters : w.bloomFilters = []

section Loop
variable {table : IntegerTable} {first : Segment} {segments : List Segment}
  (htable : table.StoredIn first) (hfixed : table.FixedWidth)
include htable hfixed

/-- One turn adds one column. -/
theorem Gathered.step {cs : List IntegerColumn} {w w' : SegmentWriter} {k : Nat} {type : DataType}
    (htype : table.types[k]? = some type) (h : Gathered segments (table.types.take k) cs w)
    (hstep : mergeColumn first segments w k = .ok w') :
    ∃ c, Gathered segments (table.types.take (k + 1)) (cs ++ [c]) w' := by
  obtain ⟨own, hown, rfl⟩ := IntegerTable.exists_column htype
  obtain ⟨colMeta, hmeta, htypes, hencoding⟩ := htable.columnMeta hown
  have hint : colMeta.type.isInteger = true := htypes ▸ own.integer
  obtain ⟨values, hgather, hadd⟩ := (mergeColumn_eq_ok hmeta hint).mp hstep
  have hrows : values.length = (segments.map Segment.numRows).sum := by
    obtain ⟨values', -, hstore, hlen⟩ := exists_gathered hgather
    rw [← storeWords_injective colMeta.type.typeSize_pos hstore, hlen]
  let c : IntegerColumn :=
    { type := colMeta.type, integer := hint, encoding := colMeta.encoding, codec := hencoding ▸ own.codec
      values, nulls := List.replicate values.length false, flagged := List.length_replicate }
  obtain ⟨wc, hwritten, rfl⟩ := IntegerColumn.apply_eq_ok (c := c) hadd
  have hlen : cs.length = k := by
    have hcount := congrArg List.length h.types
    rw [List.length_map, List.length_take, Nat.min_eq_left (List.getElem?_eq_some_iff.mp htype).1.le] at hcount
    exact hcount
  refine ⟨c, ?_, ⟨?_, ?_, ?_⟩, ?_, ?_, h.zoneMaps, h.bloomFilters⟩
  · rw [List.map_append, h.types, List.take_add_one, htype]
    exact congrArg (_ ++ [·]) htypes
  · exact List.rel_append h.wrote.written (.cons hwritten .nil)
  · intro c' hc'
    rcases List.mem_append.mp hc' with hc' | hc'
    · exact h.wrote.fixed c' hc'
    · rw [List.mem_singleton.mp hc']
      exact (hencoding ▸ hfixed own (List.mem_of_getElem? hown) : colMeta.encoding.IsFixedWidth)
  · intro c' hc'
    rcases List.mem_append.mp hc' with hc' | hc'
    · exact h.wrote.full c' hc'
    · rw [List.mem_singleton.mp hc']
      exact hrows
  · intro i c' hc'
    rcases Nat.lt_or_ge i cs.length with hi | hi
    · rw [List.getElem?_append_left hi] at hc'
      exact h.gathered i c' hc'
    · rw [List.getElem?_append_right hi] at hc'
      have hzero : i - cs.length = 0 := by
        have hlt := (List.getElem?_eq_some_iff.mp hc').1
        rw [List.length_singleton] at hlt
        omega
      rw [hzero] at hc'
      cases hc'
      have hk : i = k := by omega
      exact hk ▸ hgather
  · show max w.rowCount values.length = _
    rw [if_neg (by simp), h.rowCount, hrows]
    split
    · exact Nat.zero_max _
    · exact Nat.max_self _

/-- The loop over the columns. -/
theorem gathered_loop {k : Nat} (hk : k ≤ table.types.length) {start w : SegmentWriter}
    (hstart : start.columns = [] ∧ start.rowCount = 0 ∧ start.zoneMaps = [] ∧ start.bloomFilters = [])
    (hloop : (List.range k).foldlM (mergeColumn first segments) start = .ok w) :
    ∃ cs, Gathered segments (table.types.take k) cs w := by
  induction k generalizing w with
  | zero =>
    cases hloop
    obtain ⟨hcolumns, hrows, hzones, hblooms⟩ := hstart
    refine ⟨[], by simp, ⟨?_, by simp, by simp⟩, by simp, hrows, hzones, hblooms⟩
    rw [hcolumns]
    exact .nil
  | succ k ih =>
    rw [List.range_succ, List.foldlM_append] at hloop
    obtain ⟨w₁, hprior, hstep⟩ := bind_eq_ok.mp hloop
    obtain ⟨w₂, hstep, hdone⟩ := bind_eq_ok.mp hstep
    cases hdone
    obtain ⟨cs, hcs⟩ := ih (Nat.le_of_succ_le hk) hprior
    obtain ⟨c, hc⟩ := hcs.step htable hfixed (List.getElem?_eq_getElem hk) hstep
    exact ⟨cs ++ [c], hc⟩

end Loop

/-! ### The merged segment -/

section Merged
variable {types : List DataType} {tables : List IntegerTable} {segments : List Segment}

/-- Merging several segments, if it goes through, stores a table of what was gathered. -/
theorem stored_of_executeMerge {table : IntegerTable} {first second : Segment} {rest : List Segment}
    (htable : table.StoredIn first) (hfixed : table.FixedWidth) {maxTimestamp : Nat} {merged : Segment}
    (h : executeMerge {inputSegments := first :: second :: rest, maxTimestamp} = .ok merged) :
    ∃ t : IntegerTable, t.StoredIn merged ∧ t.types = table.types ∧ t.FixedWidth ∧
      t.rows = ((first :: second :: rest).map Segment.numRows).sum ∧
      ∀ (i : Nat) (type : DataType), t.types[i]? = some type →
        gatherColumn type i (first :: second :: rest) = .ok (t.words i).flatten := by
  obtain ⟨w, hloop, hfinish⟩ := bind_eq_ok.mp h
  cases hfinish
  rw [htable.numColumns] at hloop
  obtain ⟨cs, hcs⟩ := gathered_loop htable hfixed le_rfl ⟨rfl, rfl, rfl, rfl⟩ hloop
  refine ⟨⟨cs, _, hcs.wrote.full⟩, ⟨w, ⟨hcs.wrote.written, hcs.rowCount, hcs.zoneMaps, hcs.bloomFilters⟩, rfl⟩,
    ?_, hcs.wrote.fixed, rfl, fun i type htype => ?_⟩
  · exact hcs.types.trans (List.take_length ..)
  · obtain ⟨c, hc, rfl⟩ := IntegerTable.exists_column htype
    rw [IntegerTable.words_flatten hc]
    exact hcs.gathered i c hc

/-- Tables that fit can be merged. -/
theorem exists_executeMerge {table : IntegerTable} {first : Segment} (htable : table.StoredIn first)
    (hfixed : table.FixedWidth) (hgather : ∀ (i : Nat) (type : DataType), table.types[i]? = some type →
      ∃ allData, gatherColumn type i segments = .ok allData) (start : SegmentWriter) :
    ∃ w, (List.range first.numColumns).foldlM (mergeColumn first segments) start = .ok w := by
  obtain ⟨w, hloop, -⟩ := foldlM_range_invariant (mergeColumn first segments) (fun _ _ => True)
    first.numColumns start trivial fun k w hk _ => by
      rw [htable.numColumns] at hk
      obtain ⟨c, hc, htype⟩ := IntegerTable.exists_column (List.getElem?_eq_getElem hk)
      obtain ⟨colMeta, hmeta, hmetaType, hencoding⟩ := htable.columnMeta hc
      have hint : colMeta.type.isInteger = true := hmetaType ▸ c.integer
      obtain ⟨allData, hall⟩ := hgather k colMeta.type (by rw [hmetaType, htype, List.getElem?_eq_getElem hk])
      obtain ⟨values, -, hstore, -⟩ := exists_gathered hall
      let merged : IntegerColumn :=
        { type := colMeta.type, integer := hint, encoding := colMeta.encoding, codec := hencoding ▸ c.codec
          values, nulls := List.replicate values.length false, flagged := List.length_replicate }
      have hwidth : colMeta.encoding.IsFixedWidth := hencoding ▸ hfixed c (List.mem_of_getElem? hc)
      obtain ⟨bytes, hencode, -⟩ := hwidth.restored values
      obtain ⟨w', hadd⟩ := merged.apply_ok hencode w
      exact ⟨w', (mergeColumn_eq_ok hmeta hint).mpr ⟨values, hstore ▸ hall, hadd⟩, trivial⟩
  exact ⟨w, hloop⟩

/-- Tables of one shape that fit are merged into one whose columns are theirs behind each other. -/
theorem executeMerge_stored (hne : tables ≠ []) (hstored : List.Forall₂ IntegerTable.StoredIn tables segments)
    (htables : ∀ t ∈ tables, t.types = types ∧ t.FixedWidth ∧ ∀ j, FitsAt types t.rows j) (maxTimestamp : Nat) :
    ∃ merged, ∃ t : IntegerTable, executeMerge {inputSegments := segments, maxTimestamp} = .ok merged ∧
      t.StoredIn merged ∧ t.types = types ∧ t.FixedWidth ∧ t.rows ≤ (tables.map IntegerTable.rows).sum ∧
      merged.numRows = (segments.map Segment.numRows).sum ∧
      ∀ (i : Nat) (type : DataType), types[i]? = some type → t.words i = tables.flatMap (·.words i) := by
  have hrows : (segments.map Segment.numRows).sum ≤ (tables.map IntegerTable.rows).sum := by
    clear hne htables
    induction hstored with
    | nil => exact le_rfl
    | @cons t seg tables segments ht _ ih =>
      have hle : seg.numRows ≤ t.rows := by
        rw [ht.numRows]
        split <;> omega
      rw [List.map_cons, List.sum_cons, List.map_cons, List.sum_cons]
      omega
  have hnone : types = [] → (segments.map Segment.numRows).sum = 0 := by
    intro hno
    clear hne hrows
    induction hstored with
    | nil => rfl
    | @cons t seg tables segments ht _ ih =>
      have hcolumns : t.columns = [] := List.map_eq_nil_iff.mp ((htables t List.mem_cons_self).1.trans hno)
      rw [List.map_cons, List.sum_cons, ht.numRows, if_pos hcolumns, Nat.zero_add]
      exact ih fun t' ht' => htables t' (List.mem_cons_of_mem _ ht')
  cases hstored with
  | nil => exact absurd rfl hne
  | @cons t seg tables segments ht hrest =>
    obtain ⟨hsame, hfixed, hfits⟩ := htables t List.mem_cons_self
    cases hrest with
    | nil =>
      refine ⟨seg, t, rfl, ht, hsame, hfixed, by simp, by simp, fun i type _ => ?_⟩
      rw [List.flatMap_singleton]
    | @cons t₂ seg₂ tables segments ht₂ hrest =>
      have hall : ∀ (i : Nat) (type : DataType), types[i]? = some type →
          gatherColumn type i (seg :: seg₂ :: segments) =
            .ok ((t :: t₂ :: tables).flatMap (·.words i)).flatten := fun i type htype =>
        gatherColumn_stored (.cons ht (.cons ht₂ hrest)) htype fun t' ht' =>
          ⟨(htables t' ht').1, (htables t' ht').2.1, fun j _ => (htables t' ht').2.2 j⟩
      obtain ⟨w, hloop⟩ := exists_executeMerge ht hfixed (fun i type htype => ⟨_, hall i type (hsame ▸ htype)⟩)
        (SegmentWriter.setTimestamp {} maxTimestamp)
      have hmerge : executeMerge {inputSegments := seg :: seg₂ :: segments, maxTimestamp} = .ok w.finish := by
        rw [executeMerge]
        exact bind_eq_ok.mpr ⟨w, hloop, rfl⟩
      obtain ⟨merged, hstored, htypes, hwidth, hcount, hgathered⟩ := stored_of_executeMerge ht hfixed hmerge
      refine ⟨w.finish, merged, hmerge, hstored, htypes.trans hsame, hwidth, hcount ▸ hrows, ?_, fun i type htype => ?_⟩
      · rw [hstored.numRows]
        split
        · next hcolumns =>
          refine (hnone ?_).symm
          rw [← hsame, ← htypes, IntegerTable.types, hcolumns, List.map_nil]
        · exact hcount
      · have hbytes := (hgathered i type (htypes.symm ▸ hsame.symm ▸ htype)).symm.trans (hall i type htype)
        refine flatten_injective type.typeSize_pos
          (IntegerTable.length_words (htypes.symm ▸ hsame.symm ▸ htype)).2 (fun word hword => ?_)
          (Except.ok.inj hbytes)
        obtain ⟨t', ht', hword⟩ := List.mem_flatMap.mp hword
        exact (IntegerTable.length_words ((htables t' ht').1.symm ▸ htype)).2 word hword

end Merged

end SegmentMerger

/-! ### Merging is concatenation -/

/-- Tables with columns of these types, fixed in width, and these numbers of rows. -/
structure OfShape (types : List DataType) (rows : List Nat) (tables : List IntegerTable) : Prop where
  types : ∀ t ∈ tables, t.types = types
  rows : tables.map IntegerTable.rows = rows
  fixed : ∀ t ∈ tables, t.FixedWidth

/-- The tables' segments are merged into one with as many rows as they have together and
their columns behind each other; and merging the first few first makes no difference. -/
def Concatenates (types : List DataType) (tables : List IntegerTable) (maxTimestamp : Nat) : Prop :=
  ∃ segments merged,
    tables.mapM (fun t => writeSegment t.calls) = .ok segments ∧
    SegmentMerger.executeMerge {inputSegments := segments, maxTimestamp} = .ok merged ∧
    merged.numRows = (segments.map Segment.numRows).sum ∧
    (∀ (i : Nat) (type : DataType), types[i]? = some type →
      merged.columnType i = .ok type ∧ columnValues merged i = .ok (tables.flatMap (·.words i))) ∧
    ∀ k, 1 ≤ k → k ≤ segments.length → ∃ part two,
      SegmentMerger.executeMerge {inputSegments := segments.take k, maxTimestamp} = .ok part ∧
      SegmentMerger.executeMerge {inputSegments := part :: segments.drop k, maxTimestamp} = .ok two ∧
      two.numRows = merged.numRows ∧ ∀ i, i < types.length → columnValues two i = columnValues merged i

section Concatenation
variable {types : List DataType} {rows : List Nat} {tables : List IntegerTable}

theorem stored_of_written {segments : List Segment}
    (h : tables.mapM (fun t => writeSegment t.calls) = .ok segments) :
    List.Forall₂ IntegerTable.StoredIn tables segments := by
  refine (mapM_eq_ok.mp h).imp fun t seg hseg => ?_
  obtain ⟨w, hrun, hfinish⟩ := bind_eq_ok.mp hseg
  cases hfinish
  exact ⟨w, .of_run hrun, rfl⟩

/-- Every table of fixed width is written. -/
theorem exists_written (hfixed : ∀ t ∈ tables, t.FixedWidth) :
    ∃ segments, tables.mapM (fun t => writeSegment t.calls) = .ok segments := by
  refine exists_mapM_ok fun t ht => ?_
  have hfit : t.ColumnsFit := by
    intro c hc
    refine .inr ?_
    rcases hfixed t ht c hc with h | h
    · rw [h]
      trivial
    · rw [h]
      trivial
  obtain ⟨w, hrun, -⟩ := hfit.written
  exact ⟨w.finish, by rw [writeSegment, hrun]; rfl⟩

/-- A stored table that fits has the types and the words of its columns. -/
theorem columnValues_stored {t : IntegerTable} {seg : Segment} (h : t.StoredIn seg) (hfixed : t.FixedWidth)
    {i : Nat} {type : DataType} (htype : t.types[i]? = some type) (hfits : ∀ j ≤ i, FitsAt t.types t.rows j) :
    seg.columnType i = .ok type ∧ columnValues seg i = .ok (t.words i) := by
  obtain ⟨c, hc, rfl⟩ := IntegerTable.exists_column htype
  obtain ⟨colMeta, hmeta, hmetaType, -⟩ := h.columnMeta hc
  refine ⟨?_, h.columnValues_eq hfixed hc hfits⟩
  rw [Segment.columnType, hmeta, ← hmetaType]
  rfl

theorem concatenates_of_fits (hshape : OfShape types rows tables) (hmany : 2 ≤ rows.length)
    (hfits : ∀ i, FitsAt types rows.sum i) (maxTimestamp : Nat) : Concatenates types tables maxTimestamp := by
  obtain ⟨segments, hsegments⟩ := exists_written hshape.fixed
  have hstored := stored_of_written hsegments
  have hlen : tables.length = rows.length := by rw [← hshape.rows, List.length_map]
  have htables : ∀ t ∈ tables, t.types = types ∧ t.FixedWidth ∧ ∀ j, FitsAt types t.rows j := by
    intro t ht
    have hle : t.rows ≤ rows.sum := hshape.rows ▸ List.le_sum_of_mem (List.mem_map_of_mem ht)
    exact ⟨hshape.types t ht, hshape.fixed t ht, fun j => (hfits j).mono hle⟩
  obtain ⟨merged, t, hmerge, hmerged, htypes, hfixed, hrows, hcount, hwords⟩ :=
    SegmentMerger.executeMerge_stored (List.ne_nil_of_length_pos (by omega)) hstored htables maxTimestamp
  rw [hshape.rows] at hrows
  have hvalues : ∀ (i : Nat) (type : DataType), types[i]? = some type →
      merged.columnType i = .ok type ∧ columnValues merged i = .ok (tables.flatMap (·.words i)) := by
    intro i type htype
    have h := columnValues_stored hmerged hfixed (by rw [htypes]; exact htype) fun j _ => by
      rw [htypes]
      exact (hfits j).mono hrows
    rwa [hwords i type htype] at h
  refine ⟨segments, merged, hsegments, hmerge, hcount, hvalues, fun k hk hle => ?_⟩
  -- The first `k` tables become one, which is merged with the others.
  have hfew : tables.take k ≠ [] := by
    refine List.ne_nil_of_length_pos ?_
    rw [List.length_take]
    omega
  obtain ⟨part, first, hpart, hfirst, hfirstTypes, hfirstFixed, hfirstRows, hfirstCount, hfirstWords⟩ :=
    SegmentMerger.executeMerge_stored hfew (List.forall₂_take k hstored)
      (fun t ht => htables t (List.mem_of_mem_take ht)) maxTimestamp
  have hsplit : ((tables.take k).map IntegerTable.rows).sum + ((tables.drop k).map IntegerTable.rows).sum =
      rows.sum := by
    rw [← List.sum_append, ← List.map_append, List.take_append_drop, hshape.rows]
  have hrest : ∀ t' ∈ first :: tables.drop k, t'.types = types ∧ t'.FixedWidth ∧ ∀ j, FitsAt types t'.rows j := by
    intro t' ht'
    rcases List.mem_cons.mp ht' with rfl | ht'
    · exact ⟨hfirstTypes, hfirstFixed, fun j => (hfits j).mono (by omega)⟩
    · exact htables t' (List.mem_of_mem_drop ht')
  obtain ⟨two, t₂, htwo, hstored₂, htypes₂, hfixed₂, hrows₂, hcount₂, hwords₂⟩ :=
    SegmentMerger.executeMerge_stored (List.cons_ne_nil _ _) (.cons hfirst (List.forall₂_drop k hstored)) hrest
      maxTimestamp
  refine ⟨part, two, hpart, htwo, ?_, fun i hi => ?_⟩
  · rw [hcount, hcount₂, List.map_cons, List.sum_cons, hfirstCount, ← List.sum_append, ← List.map_append,
      List.take_append_drop]
  · have htype : types[i]? = some types[i] := List.getElem?_eq_getElem hi
    rw [List.map_cons, List.sum_cons] at hrows₂
    have h := columnValues_stored hstored₂ hfixed₂ (by rw [htypes₂]; exact htype) fun j _ => by
      rw [htypes₂]
      exact (hfits j).mono (by omega)
    rw [h.2, (hvalues i _ htype).2, hwords₂ i _ htype, List.flatMap_cons, hfirstWords i _ htype,
      ← List.flatMap_append, List.take_append_drop]

/-! ### Shapes that do not fit -/

theorem length_flatMap_words (hshape : OfShape types rows tables) {i : Nat} {type : DataType}
    (htype : types[i]? = some type) : (tables.flatMap (·.words i)).length = rows.sum := by
  rw [List.length_flatMap, ← hshape.rows]
  congr 1
  refine List.map_congr_left fun t ht => ?_
  exact (IntegerTable.length_words ((hshape.types t ht).symm ▸ htype)).1

theorem numRows_stored {segments : List Segment} (hstored : List.Forall₂ IntegerTable.StoredIn tables segments)
    (htypes : ∀ t ∈ tables, t.types = types) (hne : types ≠ []) :
    segments.map Segment.numRows = tables.map IntegerTable.rows := by
  induction hstored with
  | nil => rfl
  | @cons t seg tables segments ht _ ih =>
    have hsome : t.columns ≠ [] := fun hnone =>
      hne (by rw [← htypes t List.mem_cons_self, IntegerTable.types, hnone, List.map_nil])
    rw [List.map_cons, List.map_cons, ht.numRows, if_neg hsome,
      ih fun t' ht' => htypes t' (List.mem_cons_of_mem _ ht')]

/-- What was merged, as a table of all the rows. -/
theorem Concatenates.merged (hshape : OfShape types rows tables) (hmany : 2 ≤ rows.length)
    {maxTimestamp : Nat} (h : Concatenates types tables maxTimestamp) (hne : types ≠ []) :
    ∃ merged, ∃ t : IntegerTable, t.StoredIn merged ∧ t.types = types ∧ t.FixedWidth ∧ t.rows = rows.sum ∧
      ∀ (i : Nat) (type : DataType), types[i]? = some type →
        columnValues merged i = .ok (tables.flatMap (·.words i)) := by
  obtain ⟨segments, merged, hsegments, hmerge, -, hvalues, -⟩ := h
  have hstored := stored_of_written hsegments
  have hcounts : segments.map Segment.numRows = rows := by
    rw [← hshape.rows]
    exact numRows_stored hstored hshape.types hne
  cases hstored with
  | nil =>
    rw [← hshape.rows] at hmany
    exact absurd hmany (by decide)
  | @cons t seg tables segments ht hrest =>
    cases hrest with
    | nil =>
      rw [← hshape.rows] at hmany
      exact absurd hmany (by simp)
    | @cons t₂ seg₂ tables segments ht₂ hrest =>
      obtain ⟨merged', hstored, htypes, hfixed, hrows, -⟩ :=
        SegmentMerger.stored_of_executeMerge ht (hshape.fixed t List.mem_cons_self) hmerge
      exact ⟨merged, merged', hstored, htypes.trans (hshape.types t List.mem_cons_self), hfixed,
        hrows.trans (congrArg List.sum hcounts), fun i type htype => (hvalues i type htype).2⟩

/-- A merged column of 2^32 bytes or more is cut. -/
theorem not_concatenates_of_long (hshape : OfShape types rows tables) (hmany : 2 ≤ rows.length)
    {i : Nat} {type : DataType} (htype : types[i]? = some type) (hlong : 2 ^ 32 ≤ rows.sum * type.typeSize)
    (maxTimestamp : Nat) : ¬ Concatenates types tables maxTimestamp := by
  intro h
  have hne : types ≠ [] := List.ne_nil_of_mem (List.mem_of_getElem? htype)
  obtain ⟨merged, t, ⟨w, hw, rfl⟩, rfl, hfixed, hrows, hvalues⟩ := h.merged hshape hmany hne
  obtain ⟨c, hc, rfl⟩ := IntegerTable.exists_column htype
  obtain ⟨col, hget, hwords⟩ := bind_eq_ok.mp (hvalues i _ htype)
  have hlt := hw.length_of_long hfixed hc (hrows.symm ▸ hlong) hget
  have hlen := congrArg List.length (Except.ok.inj hwords)
  rw [List.length_map, length_flatMap_words hshape htype] at hlen
  omega

/-- Zeros in all columns but one, which has ones. -/
def marked (kinds : List {t : DataType // t.isInteger = true}) (i r : Nat) : IntegerTable where
  columns := kinds.mapIdx fun j kind =>
    { type := kind.1, integer := kind.2, encoding := .plain, codec := hasIntegerCodec_plain
      values := List.replicate r (if j = i then 1 else 0), nulls := List.replicate r false
      flagged := by rw [List.length_replicate, List.length_replicate] }
  rows := r
  equalLength := by
    intro c hc
    obtain ⟨j, hj, rfl⟩ := List.mem_mapIdx.mp hc
    exact List.length_replicate

section Marked
variable {kinds : List {t : DataType // t.isInteger = true}} {i : Nat}

theorem marked_types (r : Nat) : (marked kinds i r).types = kinds.map Subtype.val := by
  refine List.ext_getElem? fun j => ?_
  simp only [IntegerTable.types, marked, List.getElem?_map, List.getElem?_mapIdx, Option.map_map]
  rfl

theorem marked_shape : OfShape (kinds.map Subtype.val) rows (rows.map (marked kinds i)) := by
  refine ⟨fun t ht => ?_, ?_, fun t ht c hc => ?_⟩
  · obtain ⟨r, -, rfl⟩ := List.mem_map.mp ht
    exact marked_types r
  · rw [List.map_map]
    exact List.map_id _
  · obtain ⟨r, -, rfl⟩ := List.mem_map.mp ht
    obtain ⟨j, hj, rfl⟩ := List.mem_mapIdx.mp hc
    exact .inl rfl

theorem mem_marked_words {j : Nat} {type : DataType} (htype : (kinds.map Subtype.val)[j]? = some type)
    {word : List UInt8} (hword : word ∈ (rows.map (marked kinds i)).flatMap (·.words j)) :
    word = storeWord type.typeSize (if j = i then 1 else 0) := by
  obtain ⟨t, ht, hword⟩ := List.mem_flatMap.mp hword
  obtain ⟨r, -, rfl⟩ := List.mem_map.mp ht
  rw [List.getElem?_map, Option.map_eq_some_iff] at htype
  obtain ⟨kind, hkind, rfl⟩ := htype
  rw [IntegerTable.words, marked, List.getElem?_mapIdx, hkind] at hword
  obtain ⟨x, hx, rfl⟩ := List.mem_map.mp hword
  rw [List.eq_of_mem_replicate hx]

/-- The marked column, if it is the first that does not fit, is not merged. -/
theorem not_concatenates_marked (hmany : 2 ≤ rows.length)
    (hbefore : ∀ j < i, FitsAt (kinds.map Subtype.val) rows.sum j)
    (hnot : ¬ FitsAt (kinds.map Subtype.val) rows.sum i) (maxTimestamp : Nat) :
    ¬ Concatenates (kinds.map Subtype.val) (rows.map (marked kinds i)) maxTimestamp := by
  intro h
  rw [FitsAt] at hnot
  push Not at hnot
  obtain ⟨type, htype, hpos, hnot⟩ := hnot
  have hshape : OfShape (kinds.map Subtype.val) rows (rows.map (marked kinds i)) := marked_shape
  have hsize : rows.sum * type.typeSize < 2 ^ 32 :=
    not_le.mp fun hlong => not_concatenates_of_long hshape hmany htype hlong maxTimestamp h
  have hfar : 2 ^ 32 ≤ position (kinds.map Subtype.val) rows.sum i :=
    not_lt.mp fun hnear => not_lt.mpr (hnot hnear) hsize
  have hne : kinds.map Subtype.val ≠ [] := List.ne_nil_of_mem (List.mem_of_getElem? htype)
  obtain ⟨merged, t, hstored, hsame, hfixed, hrows, hvalues⟩ := h.merged hshape hmany hne
  rw [← hsame] at htype hbefore hfar
  rw [← hrows] at hbefore hfar hsize hpos
  obtain ⟨c, hc, rfl⟩ := IntegerTable.exists_column htype
  -- The columns before it are read back, and are zeros.
  have hzeros : ∀ c' ∈ t.columns.take i,
      t.rows * c'.type.typeSize < 2 ^ 32 ∧ c'.values = List.replicate t.rows 0 := by
    intro c' hc'
    obtain ⟨j, hj, rfl⟩ := List.mem_take_iff_getElem.mp hc'
    have hjc : t.columns[j]? = some t.columns[j] := List.getElem?_eq_getElem _
    have hjt : t.types[j]? = some t.columns[j].type := by
      rw [IntegerTable.types, List.getElem?_map, hjc]
      rfl
    refine ⟨((hbefore j (by omega) _ hjt).resolve_left hpos).2, List.eq_replicate_iff.mpr
      ⟨t.equalLength _ (List.getElem_mem _), fun x hx => ?_⟩⟩
    have hread := hstored.columnValues_eq hfixed hjc fun k hk => hbefore k (by omega)
    have hwords := Except.ok.inj (hread.symm.trans (hvalues j _ (hsame ▸ hjt)))
    have hword : storeWord t.columns[j].type.typeSize x ∈ t.words j := by
      rw [IntegerTable.words, hjc]
      exact List.mem_map_of_mem hx
    have hstore := mem_marked_words (hsame ▸ hjt) (hwords ▸ hword)
    rw [if_neg (by omega)] at hstore
    exact storeWord_injective _ hstore
  obtain ⟨w, hw, rfl⟩ := hstored
  obtain ⟨col, hget, hwords⟩ := bind_eq_ok.mp (hvalues i _ (hsame ▸ htype))
  rw [hw.zeros_of_far hfixed hc hzeros hfar hsize (Nat.pos_of_ne_zero hpos) hget] at hwords
  have hword : storeWord c.type.typeSize 0 ∈ (rows.map (marked kinds i)).flatMap (·.words i) := by
    rw [← Except.ok.inj hwords]
    exact List.mem_map_of_mem (List.mem_replicate.mpr ⟨hpos, rfl⟩)
  have hone := storeWord_injective _ (mem_marked_words (hsame ▸ htype) hword)
  rw [if_pos rfl] at hone
  have hne : ∀ type : DataType, (0 : Native type) ≠ 1 := by
    intro type
    cases type <;> decide
  exact hne _ hone

end Marked

/-- **Merging concatenates whatever tables there are of a shape exactly when every merged
column with rows begins below 2^32 and is shorter than that.** -/
theorem concatenates_iff (types : List DataType) (hint : ∀ type ∈ types, type.isInteger = true)
    (rows : List Nat) (hmany : 2 ≤ rows.length) (maxTimestamp : Nat) :
    (∀ tables, OfShape types rows tables → Concatenates types tables maxTimestamp) ↔
      ∀ i, FitsAt types rows.sum i := by
  lift types to List {t : DataType // t.isInteger = true} using hint
  constructor
  · intro h
    by_contra hnot
    push Not at hnot
    classical
    obtain ⟨i, hi, hleast⟩ : ∃ i, ¬ FitsAt (types.map Subtype.val) rows.sum i ∧
        ∀ j < i, FitsAt (types.map Subtype.val) rows.sum j :=
      ⟨Nat.find hnot, Nat.find_spec hnot, fun j hj => not_not.mp (Nat.find_min hnot hj)⟩
    exact not_concatenates_marked hmany hleast hi maxTimestamp (h _ marked_shape)
  · exact fun hfits tables hshape => concatenates_of_fits hshape hmany hfits maxTimestamp

/-- A Plain and a Delta column, and the other way round. -/
def plainDelta : List IntegerTable :=
  [ { columns :=
        [ {type := .int32, integer := DataType.isInteger_int32, encoding := .plain
           codec := hasIntegerCodec_plain, values := [1, -2]
           nulls := [false, false], flagged := rfl},
          {type := .int64, integer := DataType.isInteger_int64, encoding := .delta
           codec := hasIntegerCodec_delta, values := [5, 5]
           nulls := [false, false], flagged := rfl} ]
      rows := 2, equalLength := by decide },
    { columns :=
        [ {type := .int32, integer := DataType.isInteger_int32, encoding := .delta
           codec := hasIntegerCodec_delta, values := [3]
           nulls := [false], flagged := rfl},
          {type := .int64, integer := DataType.isInteger_int64, encoding := .plain
           codec := hasIntegerCodec_plain, values := [9]
           nulls := [true], flagged := rfl} ]
      rows := 1, equalLength := by decide } ]

theorem plainDelta_concatenates : Concatenates [.int32, .int64] plainDelta 7 := by
  refine (concatenates_iff [.int32, .int64] (by decide) [2, 1] (by decide) 7).mpr ?_ plainDelta ⟨?_, rfl, ?_⟩
  · intro i type htype
    match i with
    | 0 =>
      cases htype
      exact .inr (by decide)
    | 1 =>
      cases htype
      exact .inr (by decide)
    | i + 2 => cases htype
  · simp [plainDelta, IntegerTable.types]
  · simp [plainDelta, IntegerTable.FixedWidth, EncodingType.IsFixedWidth]

/-- One 64-bit column of zeros. -/
def zeros (n : Nat) : IntegerTable where
  columns := [{type := .int64, integer := DataType.isInteger_int64, encoding := .plain
               codec := hasIntegerCodec_plain, values := List.replicate n 0
               nulls := List.replicate n false, flagged := by rw [List.length_replicate, List.length_replicate]}]
  rows := n
  equalLength := by
    intro c hc
    rw [List.mem_singleton.mp hc]
    exact List.length_replicate

/-- Two columns of 2^31 bytes are merged into one whose size is cut to 0. -/
theorem halves_not_concatenated : ¬ Concatenates [.int64] [zeros (2 ^ 28), zeros (2 ^ 28)] 0 := by
  have hshape : OfShape [.int64] [2 ^ 28, 2 ^ 28] [zeros (2 ^ 28), zeros (2 ^ 28)] := by
    refine ⟨fun t ht => ?_, rfl, fun t ht c hc => ?_⟩
    · simp only [List.mem_cons, List.not_mem_nil, or_false, or_self] at ht
      rw [ht]
      rfl
    · simp only [List.mem_cons, List.not_mem_nil, or_false, or_self] at ht
      rw [ht] at hc
      rw [List.mem_singleton.mp hc]
      exact .inl rfl
  exact not_concatenates_of_long hshape (by decide) (i := 0) rfl (by decide) 0

end Concatenation

end Merger

end ColumnarStore
