import ColumnarStore.Segment.Written

/-! Integer columns through a file.

A table of integer columns is written column by column and read back. The reader takes
the number of values from the number of encoded bytes, so what comes back depends on
whether the encoded size of a column happens to give its count (`Fits`). The size is cut
to 32 bits, and a column whose size is cut never comes back; so is the offset, and a
column whose offset is cut is read from another place: `roundTrips_iff`. -/
namespace ColumnarStore
open Foundation Encoding

/-! ### Tables -/

/-- An integer column as it is added, with a null flag for every value. -/
structure IntegerColumn where
  type : DataType
  integer : type.isInteger = true
  encoding : EncodingType
  codec : hasIntegerCodec encoding = true
  values : List (Native type)
  nulls : List Bool
  flagged : nulls.length = values.length

namespace IntegerColumn

def added (c : IntegerColumn) : AddedColumn := ⟨c.type, c.values, c.nulls, c.encoding⟩

def call (c : IntegerColumn) : WriterCall := .addColumn c.type c.values c.nulls c.encoding

/-- How many bytes the column is encoded into; none if its codec fails. -/
def encodedSize (c : IntegerColumn) : Nat :=
  match encodeValues c.type c.encoding c.values with
  | .ok bytes => bytes.length
  | .error _ => 0

end IntegerColumn

/-- Integer columns of equal length. -/
structure IntegerTable where
  columns : List IntegerColumn
  rows : Nat
  equalLength : ∀ c ∈ columns, c.values.length = rows

namespace IntegerTable

def calls (t : IntegerTable) : List WriterCall := t.columns.map IntegerColumn.call

/-- The file is produced, and every column reads back with as many values as the
segment has rows, each the value written at its position. -/
def RoundTrips (t : IntegerTable) : Prop :=
  ∃ seg, writeSegment t.calls = .ok seg ∧ ∀ i c, t.columns[i]? = some c →
    ∃ vec, seg.getColumn i = .ok ⟨c.type, vec⟩ ∧ vec.size = seg.numRows ∧ vec.data = c.values

/-- The encoded size of every column gives its count, and its codec drops nothing. -/
def ColumnsFit (t : IntegerTable) : Prop := ∀ c ∈ t.columns, Fits c.type c.encoding c.values

/-- Every column is encoded, and into as many bytes, fewer than 2^32, as give its count. -/
def CountsFit (t : IntegerTable) : Prop := ∀ c ∈ t.columns, ∃ bytes,
  encodeValues c.type c.encoding c.values = .ok bytes ∧ bytes.length < 2 ^ 32 ∧
    bytes.length / c.type.typeSize = c.values.length

/-- Where column `i` begins: behind the header and the columns before it. -/
def start (t : IntegerTable) (i : Nat) : Nat :=
  headerSize t.columns.length + ((t.columns.take i).map IntegerColumn.encodedSize).sum

/-- No column's size is cut. -/
def SizesFit (t : IntegerTable) : Prop := ∀ c ∈ t.columns, c.encodedSize < 2 ^ 32

/-- No offset is cut of a column that takes any bytes. The columns themselves are counted
in 32 bits as well. -/
structure OffsetsFit (t : IntegerTable) : Prop where
  count : t.columns.length < 2 ^ 32
  starts : ∀ i c, t.columns[i]? = some c → c.encodedSize = 0 ∨ t.start i < 2 ^ 32

/-- No field of the header is cut. -/
structure EntriesFit (t : IntegerTable) : Prop where
  offsets : t.OffsetsFit
  sizes : t.SizesFit

theorem addedColumns_calls (t : IntegerTable) :
    addedColumns t.calls = t.columns.map IntegerColumn.added := by
  rw [addedColumns, calls, List.filterMap_map]
  exact congrFun List.filterMap_eq_map _

theorem rowCount_calls (t : IntegerTable) {w : SegmentWriter} (hw : w.Written t.calls)
    {c : IntegerColumn} (hc : c ∈ t.columns) : w.rowCount = t.rows := by
  have hfold : ∀ (cs : List IntegerColumn) (n : Nat), (∀ c ∈ cs, c.values.length = t.rows) →
      (n = t.rows ∨ n = 0 ∧ cs ≠ []) →
      (cs.map IntegerColumn.added).foldl (fun rows a => max rows a.values.length) n = t.rows := by
    intro cs
    induction cs with
    | nil => exact fun n _ h => h.elim id fun h => absurd rfl h.2
    | cons c rest ih =>
      intro n hlen h
      have hc : c.values.length = t.rows := hlen c List.mem_cons_self
      refine ih _ (fun c' hc' => hlen c' (List.mem_cons_of_mem _ hc')) (.inl ?_)
      show max n c.values.length = t.rows
      rcases h with rfl | ⟨rfl, -⟩ <;> omega
  rw [hw.rowCount, t.addedColumns_calls]
  exact hfold t.columns 0 t.equalLength (.inr ⟨rfl, List.ne_nil_of_mem hc⟩)

end IntegerTable

/-! ### One column -/

theorem validBounds_ok {t : DataType} (values : List (Native t)) {nulls : List Bool}
    (h : values.length ≤ nulls.length) (lo hi : Native t) :
    ∃ bounds, validBounds t lo hi values nulls = .ok bounds := by
  induction values generalizing nulls lo hi with
  | nil => exact ⟨(lo, hi), rfl⟩
  | cons x rest ih =>
    cases nulls with
    | nil => cases h
    | cons isNull nulls =>
      have hrest : rest.length ≤ nulls.length := by simpa using h
      unfold validBounds
      split
      · exact ih hrest lo hi
      · exact ih hrest _ _

theorem columnStats_ok {t : DataType} {values : List (Native t)} {nulls : List Bool}
    (h : nulls.length = values.length) : ∃ stats, columnStats t values nulls = .ok stats := by
  cases values with
  | nil => exact ⟨_, rfl⟩
  | cons x rest =>
    have hrest : rest.length ≤ nulls.tail.length := by simp [h]
    obtain ⟨bounds, hbounds⟩ := validBounds_ok rest hrest x x
    simp only [columnStats, hbounds, bind_ok, pure_eq_ok]
    exact ⟨_, rfl⟩

namespace IntegerColumn
variable (c : IntegerColumn)

theorem encoder_eq : createEncoder c.encoding c.type (storeWords c.type.typeSize c.values)
    c.values.length = encodeValues c.type c.encoding c.values := by
  rw [createEncoder_integer c.integer c.codec]
  exact Encoder.of_storeWords c.type _ c.values

theorem apply_ok {bytes : List UInt8} (h : encodeValues c.type c.encoding c.values = .ok bytes)
    (w : SegmentWriter) : ∃ w', c.call.apply w = .ok w' := by
  obtain ⟨stats, hstats⟩ := columnStats_ok c.flagged
  show ∃ w', w.addColumn c.type c.values c.nulls c.encoding = .ok w'
  rw [SegmentWriter.addColumn, c.encoder_eq, h, bind_ok, hstats, bind_ok]
  exact ⟨_, rfl⟩

/-- Decoding bytes into a fresh column. -/
theorem decode_eq_ofValues {wc : WriterColumn} (hw : c.added.WrittenAs wc) (data : List UInt8) :
    (do
      let column ← orFault .nullPointer (Column.create wc.stats.type)
      column.decode (createDecoder wc.encoding wc.stats.type) data : Outcome Column) =
      (decodeValues c.type c.encoding data (List.replicate (data.length / c.type.typeSize) 0)).map
        (Column.ofValues c.type) := by
  have hcreate : Column.create c.type = some ⟨c.type, .ofCapacity c.type 0⟩ := by
    have hne : c.type ≠ .boolean := fun h => by simpa [h, DataType.isInteger] using c.integer
    rw [Column.create, if_neg hne]
  rw [hw.type, hw.encoding]
  show (do
    let column ← orFault Fault.nullPointer (Column.create c.type)
    column.decode (createDecoder c.encoding c.type) data) = _
  rw [hcreate, orFault_some, bind_ok, Column.decode_fresh c.integer c.codec]

/-- The bytes in the writer's arrays are those the column is encoded into. -/
theorem encoded {wc : WriterColumn} (hw : c.added.WrittenAs wc) :
    encodeValues c.type c.encoding c.values = .ok wc.buffer := c.encoder_eq.symm.trans hw.buffer

theorem encodedSize_eq {bytes : List UInt8} (h : encodeValues c.type c.encoding c.values = .ok bytes) :
    c.encodedSize = bytes.length := by
  rw [encodedSize, h]

/-- Where its entry points to its bytes, a column reads as decoding makes of them. -/
theorem getColumn_eq_ofValues {w : SegmentWriter} {i : Nat} {wc : WriterColumn} (hc : w.columns[i]? = some wc)
    (hpointed : SegmentWriter.Pointed (w.columnStart i) wc.buffer) (hw : c.added.WrittenAs wc) :
    w.finish.getColumn i =
      (decodeValues c.type c.encoding wc.buffer
        (List.replicate (wc.buffer.length / c.type.typeSize) 0)).map (Column.ofValues c.type) := by
  rw [SegmentWriter.getColumn_pointed hc hpointed, c.decode_eq_ofValues hw]

theorem getColumn_of_restored {w : SegmentWriter} {i : Nat} {wc : WriterColumn} (hc : w.columns[i]? = some wc)
    (hpointed : SegmentWriter.Pointed (w.columnStart i) wc.buffer) (hw : c.added.WrittenAs wc)
    (h : Restored c.type c.encoding c.values) : w.finish.getColumn i = .ok (.ofValues c.type c.values) := by
  obtain ⟨bytes, hencode, hcount, hdecode⟩ := h
  have hbuffer : wc.buffer = bytes := Except.ok.inj ((c.encoded hw).symm.trans hencode)
  rw [c.getColumn_eq_ofValues hc hpointed hw, hbuffer, hcount, hdecode]
  rfl

/-- Wherever its entry points, a column has as many values as the size in its entry gives. -/
theorem length_of_getColumn {w : SegmentWriter} {i : Nat} {wc : WriterColumn} (hc : w.columns[i]? = some wc)
    (hw : c.added.WrittenAs wc) {col : Column} (hget : w.finish.getColumn i = .ok col) :
    col.vec.data.length = wc.buffer.length % 2 ^ 32 / c.type.typeSize := by
  rw [Segment.getColumn, (SegmentWriter.finish_get hc).1, bind_ok] at hget
  obtain ⟨data, hdata, hget⟩ := bind_eq_ok.mp hget
  rw [SegmentWriter.columnMeta, c.decode_eq_ofValues hw] at hget
  have hread : data.length = wc.buffer.length % 2 ^ 32 := Segment.readBytes_length hdata
  obtain ⟨values, hdecode, hget⟩ := map_eq_ok.mp hget
  cases hget
  show values.length = _
  rw [length_decodeValues hdecode, List.length_replicate, hread]

/-- What an `AddColumn` call with an integer column leaves. -/
theorem apply_eq_ok {c : IntegerColumn} {w w' : SegmentWriter} (h : c.call.apply w = .ok w') :
    ∃ wc, c.added.WrittenAs wc ∧
      w' = {w with columns := w.columns ++ [wc], rowCount := max w.rowCount c.values.length} := by
  obtain ⟨buffer, hbuffer, h⟩ := bind_eq_ok.mp h
  obtain ⟨stats, hstats, h⟩ := bind_eq_ok.mp h
  cases h
  refine ⟨⟨stats.copy, c.encoding, buffer⟩, ⟨?_, rfl, hbuffer⟩, rfl⟩
  rw [ColumnStats.copy_type, columnStats_type hstats]
  rfl

end IntegerColumn

/-! ### The writer of a table -/

/-- Without zone maps and filters a column's bytes are those of its buffer. -/
theorem SegmentWriter.bytesBefore_eq {w : SegmentWriter} (hzones : w.zoneMaps = []) (hblooms : w.bloomFilters = [])
    (i : Nat) {wcs : List WriterColumn} {k : Nat} (hsmall : ∀ wc ∈ wcs.take k, wc.buffer.length < 2 ^ 32) :
    w.bytesBefore i wcs k = ((wcs.take k).map WriterColumn.buffer).flatten := by
  induction wcs generalizing i k with
  | nil => cases k <;> simp [bytesBefore]
  | cons wc rest ih =>
    cases k with
    | zero => rfl
    | succ k =>
      rw [List.take_succ_cons] at hsmall ⊢
      rw [bytesBefore, w.columnBytes_of_lt i (hsmall wc List.mem_cons_self),
        ih (i + 1) fun wc' hwc' => hsmall wc' (List.mem_cons_of_mem _ hwc')]
      simp [zoneMapBytes, bloomBytes, hzones, hblooms]

namespace IntegerTable
variable {t : IntegerTable}

/-- The writer holds the columns of the table and nothing else. -/
structure WrittenBy (t : IntegerTable) (w : SegmentWriter) : Prop where
  columns : List.Forall₂ (fun c wc => c.added.WrittenAs wc) t.columns w.columns
  rowCount : w.rowCount = if t.columns = [] then 0 else t.rows
  zoneMaps : w.zoneMaps = []
  bloomFilters : w.bloomFilters = []

namespace WrittenBy
variable {w : SegmentWriter}

theorem of_run (h : SegmentWriter.run {} t.calls = .ok w) : t.WrittenBy w := by
  have hw := SegmentWriter.run_written h
  have hbare : ∀ call ∈ t.calls, ∀ w w' : SegmentWriter, w.zoneMaps = [] ∧ w.bloomFilters = [] →
      WriterCall.apply w call = .ok w' → w'.zoneMaps = [] ∧ w'.bloomFilters = [] := by
    intro call hcall w w' hw happly
    obtain ⟨c, -, rfl⟩ := List.mem_map.mp hcall
    obtain ⟨wc, -, rfl⟩ := IntegerColumn.apply_eq_ok happly
    exact hw
  obtain ⟨hzones, hblooms⟩ : w.zoneMaps = [] ∧ w.bloomFilters = [] := foldlM_preserves hbare ⟨rfl, rfl⟩ h
  have hcolumns := hw.columns
  rw [t.addedColumns_calls, List.forall₂_map_left_iff] at hcolumns
  refine ⟨hcolumns, ?_, hzones, hblooms⟩
  split
  · next hnone =>
    rw [hw.rowCount, t.addedColumns_calls, hnone]
    rfl
  · next hsome =>
    obtain ⟨c, hc⟩ := List.exists_mem_of_ne_nil _ hsome
    exact t.rowCount_calls hw hc

variable (h : t.WrittenBy w)
include h

theorem column {i : Nat} {c : IntegerColumn} (hc : t.columns[i]? = some c) :
    ∃ wc, w.columns[i]? = some wc ∧ c.added.WrittenAs wc := by
  obtain ⟨hlen, hget⟩ := List.forall₂_iff_get.mp h.columns
  obtain ⟨hi, rfl⟩ := List.getElem?_eq_some_iff.mp hc
  exact ⟨w.columns.get ⟨i, hlen ▸ hi⟩, List.getElem?_eq_getElem _, hget i hi (hlen ▸ hi)⟩

/-- The sizes of the columns are the lengths of the writer's buffers. -/
theorem sizes (k : Nat) : (t.columns.take k).map IntegerColumn.encodedSize =
    (w.columns.take k).map fun wc => wc.buffer.length := by
  rw [← List.forall₂_eq_eq_eq, List.forall₂_map_left_iff, List.forall₂_map_right_iff]
  exact (List.forall₂_take k h.columns).imp fun c wc hw => c.encodedSize_eq (c.encoded hw)

/-- A column stands behind those before it, unless one of their sizes is cut. -/
theorem columnStart_eq_start {i : Nat} (hsizes : ∀ c ∈ t.columns.take i, c.encodedSize < 2 ^ 32) :
    w.columnStart i = t.start i := by
  have hsmall : ∀ wc ∈ w.columns.take i, wc.buffer.length < 2 ^ 32 := by
    intro wc hwc
    have hmem := List.mem_map_of_mem (f := fun wc => wc.buffer.length) hwc
    rw [← h.sizes] at hmem
    obtain ⟨c, hc, hsize⟩ := List.mem_map.mp hmem
    exact hsize ▸ hsizes c hc
  rw [SegmentWriter.columnStart, SegmentWriter.bytesBefore_eq h.zoneMaps h.bloomFilters 0 hsmall,
    List.length_flatten, List.map_map, start, h.sizes, h.columns.length_eq]
  rfl

/-- Where no field is cut, every entry points to the bytes of its column. -/
theorem pointed (hentries : t.EntriesFit) {i : Nat} {c : IntegerColumn} (hc : t.columns[i]? = some c)
    {wc : WriterColumn} (hw : c.added.WrittenAs wc) : SegmentWriter.Pointed (w.columnStart i) wc.buffer := by
  have hsize := c.encodedSize_eq (c.encoded hw)
  rw [h.columnStart_eq_start fun c hc => hentries.sizes c (List.mem_of_mem_take hc)]
  rcases hentries.offsets.starts i c hc with hzero | hstart
  · exact .inl (List.eq_nil_of_length_eq_zero (hsize.symm.trans hzero))
  · exact .inr ⟨hstart, hsize ▸ hentries.sizes c (List.mem_of_getElem? hc)⟩

/-- A column that was restored reads back if no field is cut. -/
theorem getColumn_of_restored (hentries : t.EntriesFit) {i : Nat} {c : IntegerColumn}
    (hc : t.columns[i]? = some c) (hrestored : Restored c.type c.encoding c.values) :
    w.finish.getColumn i = .ok (.ofValues c.type c.values) := by
  obtain ⟨wc, hwc, hwritten⟩ := h.column hc
  exact c.getColumn_of_restored hwc (h.pointed hentries hc hwritten) hwritten hrestored

/-- A column that reads back was restored. -/
theorem restored_of_getColumn (hentries : t.EntriesFit) {i : Nat} {c : IntegerColumn}
    (hc : t.columns[i]? = some c) {vec : ColumnVector c.type}
    (hget : w.finish.getColumn i = .ok ⟨c.type, vec⟩) (hdata : vec.data = c.values) :
    Restored c.type c.encoding c.values := by
  obtain ⟨wc, hwc, hwritten⟩ := h.column hc
  rw [c.getColumn_eq_ofValues hwc (h.pointed hentries hc hwritten) hwritten] at hget
  obtain ⟨values, hdecode, hget⟩ := map_eq_ok.mp hget
  cases hget
  have hvalues : values = c.values := hdata
  have hlen := length_decodeValues hdecode
  rw [List.length_replicate, hvalues] at hlen
  refine ⟨wc.buffer, c.encoded hwritten, hlen.symm, ?_⟩
  rw [hlen, hdecode, hvalues]

/-- A column that reads back, from whatever place, was not cut, and its size gives its count. -/
theorem counts_of_getColumn {i : Nat} {c : IntegerColumn} (hc : t.columns[i]? = some c)
    {vec : ColumnVector c.type} (hget : w.finish.getColumn i = .ok ⟨c.type, vec⟩) (hdata : vec.data = c.values) :
    ∃ bytes, encodeValues c.type c.encoding c.values = .ok bytes ∧ bytes.length < 2 ^ 32 ∧
      bytes.length / c.type.typeSize = c.values.length := by
  obtain ⟨wc, hwc, hwritten⟩ := h.column hc
  have hencode := c.encoded hwritten
  have hlen : vec.data.length = _ := c.length_of_getColumn hwc hwritten hget
  rw [hdata] at hlen
  have hcut : c.values.length * c.type.typeSize ≤ wc.buffer.length % 2 ^ 32 := by
    rw [hlen]
    exact Nat.div_mul_le_self _ _
  have hmod : wc.buffer.length % 2 ^ 32 < 2 ^ 32 := Nat.mod_lt _ (by decide)
  have hbound := length_encodeValues_lt c.integer hencode (hcut.trans_lt hmod)
  -- What a cut size leaves is less than the values take.
  have hsize : wc.buffer.length < 2 ^ 32 := by
    by_contra hlong
    have hrest : wc.buffer.length % 2 ^ 32 = wc.buffer.length - 2 ^ 32 := by
      rw [Nat.mod_eq_sub_mod (not_lt.mp hlong), Nat.mod_eq_of_lt (by omega)]
    omega
  rw [Nat.mod_eq_of_lt hsize] at hlen
  exact ⟨wc.buffer, hencode, hsize, hlen.symm⟩

end WrittenBy

/-! ### The round trip -/

theorem CountsFit.sizes (h : t.CountsFit) : t.SizesFit := by
  intro c hc
  obtain ⟨bytes, hencode, hsize, -⟩ := h c hc
  exact c.encodedSize_eq hencode ▸ hsize

theorem ColumnsFit.restored (h : t.ColumnsFit) {c : IntegerColumn} (hc : c ∈ t.columns) :
    Restored c.type c.encoding c.values := restored_of_fits c.integer c.codec (h c hc)

/-- A table whose columns fit can be written. -/
theorem ColumnsFit.written (h : t.ColumnsFit) : ∃ w, SegmentWriter.run {} t.calls = .ok w ∧ t.WrittenBy w := by
  have hcalls : ∀ call ∈ t.calls, ∀ w, ∃ w', WriterCall.apply w call = .ok w' := by
    intro call hcall w
    obtain ⟨c, hc, rfl⟩ := List.mem_map.mp hcall
    obtain ⟨bytes, hbytes, -⟩ := h.restored hc
    exact c.apply_ok hbytes w
  obtain ⟨w, hrun⟩ := SegmentWriter.run_ok hcalls {}
  exact ⟨w, hrun, .of_run hrun⟩

/-- A file with a table that is smaller than 2^32 bytes cuts nothing. -/
theorem EntriesFit.of_start_lt (h : t.start t.columns.length < 2 ^ 32) : t.EntriesFit := by
  have hstart : ∀ i c, t.columns[i]? = some c → t.start i + c.encodedSize < 2 ^ 32 := by
    intro i c hc
    refine lt_of_le_of_lt ?_ h
    have hsplit : t.columns = t.columns.take i ++ c :: t.columns.drop (i + 1) := by
      obtain ⟨hi, rfl⟩ := List.getElem?_eq_some_iff.mp hc
      rw [← List.drop_eq_getElem_cons hi, List.take_append_drop]
    have hsum := congrArg (fun cs => (cs.map IntegerColumn.encodedSize).sum) hsplit
    simp only [List.map_append, List.map_cons, List.sum_append, List.sum_cons] at hsum
    rw [start, start, List.take_length]
    omega
  refine ⟨⟨?_, fun i c hc => .inr (by have := hstart i c hc; omega)⟩, fun c hc => ?_⟩
  · rw [start, headerSize, kColumnMetaSize] at h
    omega
  · obtain ⟨i, hi⟩ := List.getElem?_of_mem hc
    have := hstart i c hi
    omega

/-- **A table comes back from its file only if the encoded size of every column is below
2^32 and gives its count; where no offset is cut it comes back exactly when every column
meets the condition of its encoding and has such a size.** -/
theorem roundTrips_iff (t : IntegerTable) :
    (t.RoundTrips → t.CountsFit) ∧ (t.OffsetsFit → (t.RoundTrips ↔ t.ColumnsFit ∧ t.SizesFit)) := by
  have hcounts : t.RoundTrips → t.CountsFit := by
    rintro ⟨seg, hseg, hall⟩ c hc
    obtain ⟨w, hrun, hfinish⟩ := bind_eq_ok.mp hseg
    cases hfinish
    obtain ⟨i, hi⟩ := List.getElem?_of_mem hc
    obtain ⟨vec, hget, -, hdata⟩ := hall i c hi
    exact (WrittenBy.of_run hrun).counts_of_getColumn hi hget hdata
  refine ⟨hcounts, fun hoffsets => ⟨fun h => ?_, ?_⟩⟩
  · have hsizes := (hcounts h).sizes
    refine ⟨fun c hc => ?_, hsizes⟩
    obtain ⟨seg, hseg, hall⟩ := h
    obtain ⟨w, hrun, hfinish⟩ := bind_eq_ok.mp hseg
    cases hfinish
    obtain ⟨i, hi⟩ := List.getElem?_of_mem hc
    obtain ⟨vec, hget, -, hdata⟩ := hall i c hi
    have hrestored := (WrittenBy.of_run hrun).restored_of_getColumn ⟨hoffsets, hsizes⟩ hi hget hdata
    exact fits_of_restored c.integer c.codec (fun bytes hencode => c.encodedSize_eq hencode ▸ hsizes c hc) hrestored
  · rintro ⟨hfit, hsizes⟩
    obtain ⟨w, hrun, hw⟩ := hfit.written
    refine ⟨w.finish, by rw [writeSegment, hrun]; rfl, fun i c hi => ?_⟩
    have hc : c ∈ t.columns := List.mem_of_getElem? hi
    refine ⟨_, hw.getColumn_of_restored ⟨hoffsets, hsizes⟩ hi (hfit.restored hc), ?_, rfl⟩
    show c.values.length = w.rowCount
    rw [hw.rowCount, if_neg (List.ne_nil_of_mem hc), t.equalLength c hc]

/-- Three encodings whose sizes all give three values, the last by chance. -/
def fitting : IntegerTable where
  columns :=
    [ {type := .int32, integer := rfl, encoding := .plain, codec := rfl, values := [1, -2, 3]
       nulls := [false, false, false], flagged := rfl},
      {type := .int64, integer := rfl, encoding := .delta, codec := rfl, values := [5, 5, 4]
       nulls := [false, true, false], flagged := rfl},
      {type := .int32, integer := rfl, encoding := .bitPack, codec := rfl, values := [10, 11, 12]
       nulls := [false, false, false], flagged := rfl} ]
  rows := 3
  equalLength := by decide

theorem fitting_entriesFit : fitting.EntriesFit := .of_start_lt (by decide +kernel)

theorem fitting_roundTrips : fitting.RoundTrips := by
  refine ((roundTrips_iff fitting).2 fitting_entriesFit.offsets).mpr ⟨fun c hc => ?_, fitting_entriesFit.sizes⟩
  simp only [fitting, List.mem_cons, List.not_mem_nil, or_false] at hc
  rcases hc with rfl | rfl | rfl
  · exact .inr trivial
  · exact .inr trivial
  · exact .inr (by decide +kernel)

/-- Three equal values as one run: eight bytes, which read as two values. -/
def oneRun : IntegerTable where
  columns := [{type := .int32, integer := rfl, encoding := .rle, codec := rfl, values := [7, 7, 7]
               nulls := [false, false, false], flagged := rfl}]
  rows := 3
  equalLength := by decide

theorem oneRun_not_roundTrips : ¬ oneRun.RoundTrips := by
  intro h
  obtain ⟨seg, hseg, hall⟩ := h
  obtain ⟨vec, hget, hsize, -⟩ := hall 0 _ rfl
  have hread : (do
      let seg ← writeSegment oneRun.calls
      let column ← seg.getColumn 0
      return (column.vec.size, seg.numRows) : Outcome (Nat × Nat)) = .ok (2, 3) := by decide +kernel
  rw [hseg, bind_ok, hget, bind_ok] at hread
  obtain ⟨hvec, hrows⟩ := Prod.mk.inj (Except.ok.inj hread)
  have hsame : (2 : Nat) = 3 := hvec.symm.trans (hsize.trans hrows)
  exact absurd hsame (by decide)

end IntegerTable

end ColumnarStore
