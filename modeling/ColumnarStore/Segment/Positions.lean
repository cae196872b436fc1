import ColumnarStore.Segment.Intact
import ColumnarStore.Segment.RoundTrip

/-! Where the columns of a table of fixed width lie.

Plain and Delta store a value in as many bytes as it has, so the types of the columns
and the number of rows say where each column begins. A column that begins below 2^32
and is shorter than that reads back, whatever lies behind it (`WrittenBy.getColumn`);
the entry of any other points somewhere else or takes in less. -/
namespace ColumnarStore
open Foundation Encoding

/-! ### Columns of fixed width -/

/-- An encoding that stores a value in as many bytes as it has. -/
def EncodingType.IsFixedWidth (encoding : EncodingType) : Prop := encoding = .plain ∨ encoding = .delta

instance (encoding : EncodingType) : Decidable encoding.IsFixedWidth := inferInstanceAs (Decidable (_ ∨ _))

theorem EncodingType.IsFixedWidth.restored {encoding : EncodingType} (h : encoding.IsFixedWidth) {t : DataType}
    (src : List (Native t)) : Restored t encoding src := by
  rcases h with rfl | rfl
  · exact restored_plain src
  · exact restored_delta src

/-- Zeros are stored as zeros. -/
theorem EncodingType.IsFixedWidth.encode_zeros {encoding : EncodingType} (h : encoding.IsFixedWidth) (t : DataType)
    (n : Nat) :
    encodeValues t encoding (List.replicate n 0) = .ok (List.replicate (t.typeSize * n) 0) := by
  rcases h with rfl | rfl
  · exact congrArg Except.ok (storeWords_zeros _ n)
  · have hzeros : ∀ n, Delta.differences t 0 (List.replicate n 0) = List.replicate n 0 := by
      intro n
      induction n with
      | zero => rfl
      | succ n ih =>
        rw [List.replicate_succ, Delta.differences, BitVec.sub_self, ih]
        rfl
    cases n with
    | zero => rfl
    | succ n =>
      show Except.ok (storeWords t.typeSize (0 :: Delta.differences t 0 (List.replicate n 0))) = _
      rw [hzeros, ← List.replicate_succ, storeWords_zeros]

namespace IntegerColumn
variable {c : IntegerColumn} (hfixed : c.encoding.IsFixedWidth) {wc : WriterColumn} (hw : c.added.WrittenAs wc)
include hfixed hw

/-- The bytes of a column of fixed width, and what decoding makes of them. -/
theorem buffer_spec :
    wc.buffer.length = c.values.length * c.type.typeSize ∧
      decodeValues c.type c.encoding wc.buffer
        (List.replicate (wc.buffer.length / c.type.typeSize) 0) = .ok c.values := by
  have hbuffer := c.encoded hw
  obtain ⟨bytes, hbytes, hcount, hdecode⟩ := hfixed.restored c.values
  cases hbytes.symm.trans hbuffer
  refine ⟨?_, by rw [hcount]; exact hdecode⟩
  rw [Nat.mul_comm]
  rcases hfixed with h | h
  · rw [h] at hbuffer
    rw [← Except.ok.inj hbuffer]
    exact length_storeWords ..
  · rw [h] at hbuffer
    exact Delta.encode_length _ hbuffer

theorem buffer_zeros {n : Nat} (hvalues : c.values = List.replicate n 0) : ∀ byte ∈ wc.buffer, byte = 0 := by
  have hbuffer := c.encoded hw
  rw [hvalues, hfixed.encode_zeros] at hbuffer
  rw [← Except.ok.inj hbuffer]
  exact fun byte hbyte => List.eq_of_mem_replicate hbyte

end IntegerColumn

namespace IntegerTable

def types (t : IntegerTable) : List DataType := t.columns.map IntegerColumn.type

def FixedWidth (t : IntegerTable) : Prop := ∀ c ∈ t.columns, c.encoding.IsFixedWidth

end IntegerTable

/-- Where column `c` of some columns of fixed width begins. -/
def position (types : List DataType) (rows c : Nat) : Nat :=
  headerSize types.length + rows * ((types.take c).map DataType.typeSize).sum

/-- A column with rows begins below 2^32 and is shorter than that. -/
def FitsAt (types : List DataType) (rows c : Nat) : Prop :=
  ∀ type ∈ types[c]?, rows = 0 ∨ position types rows c < 2 ^ 32 ∧ rows * type.typeSize < 2 ^ 32

theorem FitsAt.mono {types : List DataType} {rows rows' c : Nat} (h : FitsAt types rows c)
    (hle : rows' ≤ rows) : FitsAt types rows' c := by
  intro type htype
  rcases h type htype with hnone | ⟨hstart, hsize⟩
  · exact .inl (by omega)
  · have hstart' : position types rows' c ≤ position types rows c :=
      Nat.add_le_add_left (Nat.mul_le_mul_right _ hle) _
    exact .inr ⟨hstart'.trans_lt hstart, (Nat.mul_le_mul_right _ hle).trans_lt hsize⟩

/-! ### Columns one after the other -/

/-- Columns that were written, each with a value for every row. -/
structure WroteColumns (rows : Nat) (cs : List IntegerColumn) (wcs : List WriterColumn) : Prop where
  written : List.Forall₂ (fun c wc => c.added.WrittenAs wc) cs wcs
  fixed : ∀ c ∈ cs, c.encoding.IsFixedWidth
  full : ∀ c ∈ cs, c.values.length = rows

namespace WroteColumns
variable {rows : Nat} {cs : List IntegerColumn} {wcs : List WriterColumn} (h : WroteColumns rows cs wcs)
include h

theorem take (k : Nat) : WroteColumns rows (cs.take k) (wcs.take k) :=
  ⟨List.forall₂_take k h.written, fun c hc => h.fixed c (List.mem_of_mem_take hc),
    fun c hc => h.full c (List.mem_of_mem_take hc)⟩

theorem length_buffers :
    (wcs.map WriterColumn.buffer).flatten.length = rows * (cs.map fun c => c.type.typeSize).sum := by
  obtain ⟨hwritten, hfixed, hfull⟩ := h
  induction hwritten with
  | nil => rfl
  | @cons c wc cs wcs hc _ ih =>
    obtain ⟨hlen, -⟩ := IntegerColumn.buffer_spec (hfixed c List.mem_cons_self) hc
    have hrest := ih (fun c' hc' => hfixed c' (List.mem_cons_of_mem _ hc'))
      fun c' hc' => hfull c' (List.mem_cons_of_mem _ hc')
    rw [hfull c List.mem_cons_self] at hlen
    rw [List.map_cons, List.flatten_cons, List.length_append, hrest, hlen, List.map_cons, List.sum_cons,
      Nat.mul_add]

theorem mem_of_written {wc : WriterColumn} (hwc : wc ∈ wcs) : ∃ c ∈ cs, c.added.WrittenAs wc := by
  obtain ⟨k, hk⟩ := List.getElem?_of_mem hwc
  obtain ⟨hlen, hget⟩ := List.forall₂_iff_get.mp h.written
  obtain ⟨hin, rfl⟩ := List.getElem?_eq_some_iff.mp hk
  exact ⟨cs.get ⟨k, hlen ▸ hin⟩, List.get_mem _ _, hget k (hlen ▸ hin) hin⟩

theorem buffer_lt (hsmall : ∀ c ∈ cs, rows * c.type.typeSize < 2 ^ 32) :
    ∀ wc ∈ wcs, wc.buffer.length < 2 ^ 32 := by
  intro wc hwc
  obtain ⟨c, hc, hwritten⟩ := h.mem_of_written hwc
  rw [(IntegerColumn.buffer_spec (h.fixed c hc) hwritten).1, h.full c hc]
  exact hsmall c hc

end WroteColumns

namespace SegmentWriter
variable {w : SegmentWriter} (hzones : w.zoneMaps = []) (hblooms : w.bloomFilters = [])
include hzones hblooms

/-- Where a column begins that stands behind small ones. -/
theorem columnStart_eq {rows : Nat} {cs : List IntegerColumn} {k : Nat}
    (h : WroteColumns rows cs (w.columns.take k)) (hsmall : ∀ c ∈ cs, rows * c.type.typeSize < 2 ^ 32) :
    w.columnStart k = headerSize w.columns.length + rows * (cs.map fun c => c.type.typeSize).sum := by
  rw [columnStart, bytesBefore_eq hzones hblooms 0 (h.buffer_lt hsmall), h.length_buffers]

end SegmentWriter

namespace IntegerTable.WrittenBy
variable {t : IntegerTable} {w : SegmentWriter}

variable (h : t.WrittenBy w) (hfixed : t.FixedWidth)
include h hfixed

theorem wroteColumns : WroteColumns t.rows t.columns w.columns := ⟨h.columns, hfixed, t.equalLength⟩

/-- Where a column begins that stands behind small ones. -/
theorem columnStart_eq {i : Nat} (hsmall : ∀ c ∈ t.columns.take i, t.rows * c.type.typeSize < 2 ^ 32) :
    w.columnStart i = position t.types t.rows i := by
  rw [SegmentWriter.columnStart_eq h.zoneMaps h.bloomFilters ((h.wroteColumns hfixed).take i) hsmall, position,
    types, List.length_map, ← List.map_take, List.map_map, h.columns.length_eq]
  rfl

/-- A column's buffer holds its values at their width. -/
theorem fixedColumn {i : Nat} {c : IntegerColumn} (hc : t.columns[i]? = some c) :
    ∃ wc, w.columns[i]? = some wc ∧ c.added.WrittenAs wc ∧ wc.buffer.length = t.rows * c.type.typeSize := by
  obtain ⟨wc, hwc, hwritten⟩ := h.column hc
  have hmem := List.mem_of_getElem? hc
  refine ⟨wc, hwc, hwritten, ?_⟩
  rw [(IntegerColumn.buffer_spec (hfixed c hmem) hwritten).1, t.equalLength c hmem]

/-- A column that fits, behind others that fit, reads back. -/
theorem getColumn {i : Nat} {c : IntegerColumn} (hc : t.columns[i]? = some c)
    (hfits : ∀ j ≤ i, FitsAt t.types t.rows j) :
    w.finish.getColumn i = .ok (.ofValues c.type c.values) := by
  obtain ⟨wc, hwc, hwritten, hlen⟩ := h.fixedColumn hfixed hc
  obtain ⟨-, hdecode⟩ := IntegerColumn.buffer_spec (hfixed c (List.mem_of_getElem? hc)) hwritten
  have htype : ∀ (j : Nat) (c : IntegerColumn), t.columns[j]? = some c → c.type ∈ t.types[j]? := by
    intro j c hc
    rw [types, List.getElem?_map, hc]
    rfl
  have hpointed : SegmentWriter.Pointed (w.columnStart i) wc.buffer := by
    rcases hfits i le_rfl _ (htype i _ hc) with hnone | ⟨hstart, hsize⟩
    · rw [hnone, Nat.zero_mul] at hlen
      exact .inl (List.eq_nil_of_length_eq_zero hlen)
    · have hsmall : ∀ c ∈ t.columns.take i, t.rows * c.type.typeSize < 2 ^ 32 := by
        intro c hc
        obtain ⟨j, hj, rfl⟩ := List.mem_take_iff_getElem.mp hc
        rcases hfits j (by omega) _ (htype j _ (List.getElem?_eq_getElem _)) with hnone | ⟨-, hsize⟩
        · rw [hnone, Nat.zero_mul]
          decide
        · exact hsize
      exact .inr ⟨h.columnStart_eq hfixed hsmall ▸ hstart, hlen ▸ hsize⟩
  rw [c.getColumn_eq_ofValues hwc hpointed hwritten, hdecode]
  rfl

/-! ### Columns that do not fit -/

/-- A column of 2^32 bytes or more reads as fewer values than it has. -/
theorem length_of_long {i : Nat} {c : IntegerColumn} (hc : t.columns[i]? = some c)
    (hlong : 2 ^ 32 ≤ t.rows * c.type.typeSize) {col : Column} (hget : w.finish.getColumn i = .ok col) :
    col.vec.data.length < t.rows := by
  obtain ⟨wc, hwc, hwritten, -⟩ := h.fixedColumn hfixed hc
  rw [c.length_of_getColumn hwc hwritten hget, Nat.div_lt_iff_lt_mul c.type.typeSize_pos]
  exact (Nat.mod_lt _ (by decide)).trans_le hlong

/-- A column that begins at 2^32 or later reads as what lies at the remainder: zeros, if
the columns before it are. -/
theorem zeros_of_far {i : Nat} {c : IntegerColumn} (hc : t.columns[i]? = some c)
    (hbefore : ∀ c' ∈ t.columns.take i, t.rows * c'.type.typeSize < 2 ^ 32 ∧ c'.values = List.replicate t.rows 0)
    (hfar : 2 ^ 32 ≤ position t.types t.rows i) (hsize : t.rows * c.type.typeSize < 2 ^ 32) (hpos : 0 < t.rows)
    {col : Column} (hget : w.finish.getColumn i = .ok col) :
    col = .ofValues c.type (List.replicate t.rows 0) := by
  obtain ⟨wc, hwc, hwritten, hlen⟩ := h.fixedColumn hfixed hc
  have hwrote := (h.wroteColumns hfixed).take i
  have hsmall : ∀ c ∈ t.columns.take i, t.rows * c.type.typeSize < 2 ^ 32 := fun c hc => (hbefore c hc).1
  obtain ⟨hmeta, after, hbody⟩ := SegmentWriter.finish_get hwc
  have hstart := h.columnStart_eq hfixed hsmall
  -- The body up to the column is all zeros.
  obtain ⟨n, hn, hzeros⟩ : ∃ n, w.columnStart i = headerSize w.columns.length + n ∧
      w.bytesBefore 0 w.columns i = List.replicate n 0 := by
    refine ⟨_, rfl, List.eq_replicate_iff.mpr ⟨rfl, fun byte hbyte => ?_⟩⟩
    rw [SegmentWriter.bytesBefore_eq h.zoneMaps h.bloomFilters 0 (hwrote.buffer_lt hsmall)] at hbyte
    obtain ⟨buffer, hbuffer, hbyte⟩ := List.mem_flatten.mp hbyte
    obtain ⟨wc', hwc', rfl⟩ := List.mem_map.mp hbuffer
    obtain ⟨c', hc', hwritten'⟩ := hwrote.mem_of_written hwc'
    exact IntegerColumn.buffer_zeros (hwrote.fixed c' hc') hwritten' (hbefore c' hc').2 byte hbyte
  have hread : ∀ data, w.finish.readBytes (w.columnStart i % 2 ^ 32) wc.buffer.length = .ok data →
      data = List.replicate (c.type.typeSize * t.rows) 0 := by
    intro data hdata
    rw [Segment.readBytes, hbody, hzeros, hlen] at hdata
    rw [if_neg (Nat.mul_pos hpos c.type.typeSize_pos).ne'] at hdata
    split at hdata
    · next hin =>
      have hbefore : headerSize w.columns.length ≤ w.columnStart i % 2 ^ 32 := hin.1
      have hroom : w.columnStart i % 2 ^ 32 - headerSize w.columns.length + t.rows * c.type.typeSize ≤ n := by
        omega
      cases hdata
      show ((List.replicate n 0 ++ _).drop (w.columnStart i % 2 ^ 32 - headerSize w.columns.length)).take _ = _
      rw [List.drop_append_of_le_length (by rw [List.length_replicate]; omega), List.drop_replicate,
        List.take_append_of_le_length (by rw [List.length_replicate]; omega), List.take_replicate,
        Nat.mul_comm c.type.typeSize, Nat.min_eq_left (by omega)]
    · cases hdata
  rw [Segment.getColumn, hmeta, bind_ok] at hget
  obtain ⟨data, hdata, hget⟩ := bind_eq_ok.mp hget
  rw [SegmentWriter.columnMeta, c.decode_eq_ofValues hwritten] at hget
  have hdata : w.finish.readBytes (w.columnStart i % 2 ^ 32) (SegmentWriter.toUInt32 wc.buffer.length) = .ok data :=
    hdata
  rw [SegmentWriter.toUInt32_of_lt (hlen ▸ hsize)] at hdata
  have hwidth := hfixed c (List.mem_of_getElem? hc)
  obtain ⟨bytes, hbytes, hcount, hdecode⟩ := hwidth.restored (List.replicate t.rows (0 : Native c.type))
  rw [hwidth.encode_zeros] at hbytes
  rw [List.length_replicate] at hcount hdecode
  rw [hread data hdata, Except.ok.inj hbytes, hcount, hdecode] at hget
  exact (Except.ok.inj hget).symm

end IntegerTable.WrittenBy

end ColumnarStore
