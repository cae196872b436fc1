import ColumnarStore.Segment.File

/-! A file that is opened again.

A file of fewer than 2^32 bytes gives back what its writer was given: the number of rows
and columns, their types and encodings, the encoded bytes, the zone maps and the filters;
and the regions its header points to lie behind the header and beside each other. The
one exception is a filter of so many bits that it has no words (`reopens_iff`). A column's
bytes are cut to the 32 bits of their size before they are written; `cut` is the writer
that holds the bytes that are. -/
namespace ColumnarStore
open Foundation Encoding

/-! ### Calls -/

/-- The sizes are those of vectors, zone maps have blocks and a block size of 32 bits, and
filters have bits. -/
def WriterCall.WellFormed : WriterCall → Prop
  | setTimestamp _ => True
  | addColumn _ values nulls _ => values.length < 2 ^ 64 ∧ nulls.length < 2 ^ 64
  | addZoneMap _ zm => zm.entries ≠ [] ∧ zm.blockRows < 2 ^ 32
  | addBloomFilter _ bf => 1 ≤ bf.numBits ∧ bf.numBits < 2 ^ 64 ∧ bf.numHashes < 2 ^ 64

/-- A value that is replaced on the way comes from one of the steps. -/
theorem foldl_eq_or_mem {α β : Type} {f : β → α → β} {g : β → α}
    (h : ∀ prior x, f prior x = prior ∨ x = g (f prior x)) (xs : List α) (init : β) :
    xs.foldl f init = init ∨ g (xs.foldl f init) ∈ xs := by
  induction xs using List.reverseRecOn with
  | nil => exact .inl rfl
  | append_singleton before x ih =>
    rw [List.foldl_append, List.foldl_cons, List.foldl_nil]
    rcases h (before.foldl f init) x with hkeep | hstep
    · rw [hkeep]
      exact ih.imp_right (List.mem_append_left _)
    · exact .inr (List.mem_append_right _ (List.mem_singleton.mpr hstep.symm))

/-- A column has the zone map of one of the calls, or none. -/
theorem zoneMapOf_mem (calls : List WriterCall) (i : Nat) :
    zoneMapOf calls i = {} ∨ WriterCall.addZoneMap i (zoneMapOf calls i) ∈ calls := by
  refine foldl_eq_or_mem (g := WriterCall.addZoneMap i) (fun prior call => ?_) calls {}
  cases call with
  | addZoneMap colIdx zm =>
    by_cases hcol : colIdx = i
    · subst hcol
      exact .inr (by simp [WriterCall.zoneMapAfter])
    · exact .inl (if_neg hcol)
  | _ => exact .inl rfl

theorem bloomFilterOf_mem (calls : List WriterCall) (i : Nat) :
    bloomFilterOf calls i = .empty ∨ WriterCall.addBloomFilter i (bloomFilterOf calls i) ∈ calls := by
  refine foldl_eq_or_mem (g := WriterCall.addBloomFilter i) (fun prior call => ?_) calls .empty
  cases call with
  | addBloomFilter colIdx bf =>
    by_cases hcol : colIdx = i
    · subst hcol
      exact .inr (by simp [WriterCall.bloomFilterAfter])
    · exact .inl (if_neg hcol)
  | _ => exact .inl rfl

/-! ### What fits the fields -/

namespace SegmentWriter

/-- The writer's numbers fit the fields they are written to. -/
structure Storable (w : SegmentWriter) : Prop where
  rowCount : w.rowCount < 2 ^ 64
  createdTs : w.createdTs < 2 ^ 64
  stats : ∀ c ∈ w.columns, c.stats.Storable

end SegmentWriter

theorem ColumnStats.Storable.copy {s : ColumnStats} (h : s.Storable) : s.copy.Storable := by
  unfold ColumnStats.copy
  split
  · exact h
  · split <;> exact h

theorem length_distinctValues_le (t : DataType) (values : List (Native t)) :
    (distinctValues t values).length ≤ values.length := by
  rw [distinctValues]
  induction values using List.reverseRecOn with
  | nil => exact le_rfl
  | append_singleton before x ih =>
    rw [List.foldl_append, List.length_append, List.foldl_cons, List.foldl_nil]
    split
    · exact ih.trans (Nat.le_add_right _ _)
    · rw [List.length_append]
      exact Nat.add_le_add_right ih 1

theorem columnStats_storable {t : DataType} {values : List (Native t)} {nulls : List Bool} {stats : ColumnStats}
    (hvalues : values.length < 2 ^ 64) (hnulls : nulls.length < 2 ^ 64)
    (h : columnStats t values nulls = .ok stats) : stats.Storable := by
  have hcounts : nulls.count true < 2 ^ 64 ∧ (distinctValues t values).length < 2 ^ 64 ∧
      values.length < 2 ^ 64 :=
    ⟨List.count_le_length.trans_lt hnulls, (length_distinctValues_le t values).trans_lt hvalues, hvalues⟩
  cases values with
  | nil =>
    cases h
    exact hcounts
  | cons x rest =>
    obtain ⟨bounds, -, h⟩ := bind_eq_ok.mp h
    cases h
    exact hcounts

namespace SegmentWriter

theorem Storable.apply {w w' : SegmentWriter} (h : w.Storable) {call : WriterCall} (hcall : call.WellFormed)
    (happly : call.apply w = .ok w') : w'.Storable := by
  cases call with
  | setTimestamp ts =>
    cases happly
    exact ⟨h.rowCount, h.createdTs, h.stats⟩
  | addColumn t values nulls encoding =>
    obtain ⟨buffer, -, happly⟩ := bind_eq_ok.mp happly
    obtain ⟨stats, hstats, happly⟩ := bind_eq_ok.mp happly
    cases happly
    refine ⟨max_lt h.rowCount hcall.1, h.createdTs, fun c hc => ?_⟩
    rcases List.mem_append.mp hc with hc | hc
    · exact h.stats c hc
    · rw [List.mem_singleton.mp hc]
      exact (columnStats_storable hcall.1 hcall.2 hstats).copy
  | addZoneMap colIdx zm =>
    cases happly
    exact ⟨h.rowCount, h.createdTs, h.stats⟩
  | addBloomFilter colIdx bf =>
    cases happly
    exact ⟨h.rowCount, h.createdTs, h.stats⟩

theorem storable_run {calls : List WriterCall} (hcalls : ∀ call ∈ calls, call.WellFormed) {w w' : SegmentWriter}
    (h : w.Storable) (hrun : run w calls = .ok w') : w'.Storable :=
  foldlM_preserves (fun call hcall _ _ hw happly => hw.apply (hcalls call hcall) happly) h hrun

theorem toUInt32_lt (n : Nat) : toUInt32 n < 2 ^ 32 := Nat.mod_lt _ (by decide)

theorem columnMeta_storable (w : SegmentWriter) (i : Nat) {c : WriterColumn} (h : c.stats.Storable)
    (position : Nat) : (w.columnMeta i c position).Storable := by
  refine ⟨toUInt32_lt _, h.copy, ?_, toUInt32_lt _, ?_, toUInt32_lt _⟩
  · simp only [columnMeta]
    split
    · decide
    · exact toUInt32_lt _
  · simp only [columnMeta]
    split
    · decide
    · exact toUInt32_lt _

theorem finishColumns_storable (w : SegmentWriter) (start i : Nat) {cs : List WriterColumn}
    (h : ∀ c ∈ cs, c.stats.Storable) (body : List UInt8) :
    ∀ m ∈ (w.finishColumns start i cs body).1, m.Storable := by
  induction cs generalizing i body with
  | nil => exact fun m hm => (List.not_mem_nil hm).elim
  | cons c rest ih =>
    intro m hm
    rw [finishColumns] at hm
    rcases List.mem_cons.mp hm with rfl | hm
    · exact w.columnMeta_storable i (h c List.mem_cons_self) _
    · exact ih (i + 1) (fun c' hc' => h c' (List.mem_cons_of_mem _ hc')) _ m hm

theorem finish_storable {w : SegmentWriter} (h : w.Storable) (hcolumns : w.columns.length < 2 ^ 32) :
    w.finish.header.Storable where
  magic := show (0x434F4C53 : Nat) < 2 ^ 32 by decide
  version := show (1 : Nat) < 2 ^ 32 by decide
  numColumns := hcolumns
  numRows := h.rowCount
  createdTs := h.createdTs
  checksum := show (0 : Nat) < 2 ^ 64 by decide
  columns := w.finishColumns_storable _ _ h.stats _
  length_columns := w.length_finishColumns ..

end SegmentWriter

/-! ### The bytes that are written -/

/-- The column with the bytes of it that are written. -/
def WriterColumn.cut (c : WriterColumn) : WriterColumn :=
  {c with buffer := c.buffer.take (SegmentWriter.toUInt32 c.buffer.length)}

theorem WriterColumn.length_cut (c : WriterColumn) :
    c.cut.buffer.length = SegmentWriter.toUInt32 c.buffer.length := by
  rw [cut, List.length_take]
  exact Nat.min_eq_left (Nat.mod_le _ _)

namespace SegmentWriter
variable (w : SegmentWriter)

/-- The writer of the bytes that are written. -/
def cut : SegmentWriter := {w with columns := w.columns.map WriterColumn.cut}

theorem columnMeta_cut (i : Nat) (c : WriterColumn) (position : Nat) :
    w.cut.columnMeta i c.cut position = w.columnMeta i c position := by
  have hsize : toUInt32 c.cut.buffer.length = toUInt32 c.buffer.length := by
    rw [c.length_cut, toUInt32_of_lt (toUInt32_lt _)]
  simp only [columnMeta, hsize]
  rfl

theorem columnBytes_cut (i : Nat) (c : WriterColumn) : w.cut.columnBytes i c.cut = w.columnBytes i c := by
  have htake : c.cut.buffer.take (toUInt32 c.cut.buffer.length) = c.cut.buffer := by
    rw [c.length_cut, toUInt32_of_lt (toUInt32_lt _), ← c.length_cut, List.take_length]
  rw [columnBytes, htake]
  rfl

theorem finishColumns_cut (start i : Nat) (cs : List WriterColumn) (body : List UInt8) :
    w.cut.finishColumns start i (cs.map WriterColumn.cut) body = w.finishColumns start i cs body := by
  induction cs generalizing i body with
  | nil => rfl
  | cons c rest ih => rw [List.map_cons, finishColumns, finishColumns, columnBytes_cut, columnMeta_cut, ih]

/-- Cutting the bytes before they are written changes nothing in the file. -/
theorem finish_cut : w.cut.finish = w.finish := by
  have hlen : w.cut.columns.length = w.columns.length := List.length_map _
  have hcolumns := w.finishColumns_cut (headerSize w.columns.length) 0 w.columns []
  rw [finish, hlen, show w.cut.columns = w.columns.map WriterColumn.cut from rfl, hcolumns]
  rfl

theorem length_finishColumns_body (start i : Nat) (cs : List WriterColumn) (body : List UInt8) :
    (w.finishColumns start i cs body).2.length =
      body.length + w.cut.regionsSize i (cs.map WriterColumn.cut) := by
  induction cs generalizing i body with
  | nil => rfl
  | cons c rest ih =>
    have hcolumn : (w.columnBytes i c).length = w.cut.regionSize i c.cut := by
      rw [columnBytes, List.length_append, List.length_append]
      rfl
    rw [finishColumns, List.map_cons, regionsSize, ← hcolumn]
    exact (ih (i + 1) _).trans (by rw [List.length_append, Nat.add_assoc])

theorem length_finishFile (layout : MetaLayout) : (w.finishFile layout).length = w.cut.fileSize := by
  rw [finishFile_eq, List.length_append, SegmentHeader.length_chunks, fileSize]
  show headerSize (w.finishColumns (headerSize w.columns.length) 0 w.columns []).1.length +
    (w.finishColumns (headerSize w.columns.length) 0 w.columns []).2.length = _
  rw [length_finishColumns, length_finishColumns_body, List.length_nil, Nat.zero_add, cut, List.length_map]

end SegmentWriter

/-! ### Regions -/

/-- A piece of a file. -/
structure Region where
  offset : Nat
  size : Nat

namespace Region

/-- No byte belongs to both. -/
def Disjoint (a b : Region) : Prop :=
  ∀ p, a.offset ≤ p → p < a.offset + a.size → ¬ (b.offset ≤ p ∧ p < b.offset + b.size)

/-- Nothing of the region lies outside. -/
def Within (lo hi : Nat) (r : Region) : Prop := r.size = 0 ∨ lo ≤ r.offset ∧ r.offset + r.size ≤ hi

theorem Within.mono {lo lo' hi hi' : Nat} {r : Region} (h : Within lo hi r) (hlo : lo' ≤ lo)
    (hhi : hi ≤ hi') : Within lo' hi' r :=
  h.imp_right fun h => ⟨hlo.trans h.1, h.2.trans hhi⟩

/-- Pieces of two parts of the file. -/
theorem disjoint_of_within {lo mid hi : Nat} {a b : Region} (ha : Within lo mid a) (hb : Within mid hi b) :
    Disjoint a b := by
  intro p hap hap' h
  obtain ⟨hbp, hbp'⟩ := h
  rcases ha with ha | ha <;> rcases hb with hb | hb <;> omega

end Region

/-- The regions a column's record points to; one that is not there has no bytes. -/
def ColumnMeta.regions (m : ColumnMeta) : List Region :=
  [⟨m.offset, m.size⟩, ⟨m.zoneMapOffset, m.zoneMapSize⟩, ⟨m.bloomOffset, m.bloomSize⟩]

def Segment.regions (s : Segment) : List Region := s.header.columns.flatMap ColumnMeta.regions

namespace SegmentWriter
variable (w : SegmentWriter)

open Region in
/-- A section that is left out when it has no bytes. -/
theorem within_optional {lo : Nat} {bytes : List UInt8} (h : lo + bytes.length < 2 ^ 32) :
    Within lo (lo + bytes.length) ⟨if bytes = [] then 0 else toUInt32 lo, toUInt32 bytes.length⟩ := by
  split
  · next hempty => exact .inl (by rw [hempty]; rfl)
  · rw [toUInt32_of_lt (by omega), toUInt32_of_lt (by omega)]
    exact .inr ⟨le_rfl, le_rfl⟩

open Region in
theorem columnMeta_regions (i : Nat) (c : WriterColumn) {position : Nat}
    (h : position + w.regionSize i c < 2 ^ 32) :
    (w.columnMeta i c position).regions.Pairwise Disjoint ∧
      ∀ r ∈ (w.columnMeta i c position).regions, Within position (position + w.regionSize i c) r := by
  rw [regionSize] at h ⊢
  have hsize : toUInt32 c.buffer.length = c.buffer.length := toUInt32_of_lt (by omega)
  have hdata : Within position (position + c.buffer.length)
      ⟨(w.columnMeta i c position).offset, (w.columnMeta i c position).size⟩ := by
    refine .inr ⟨?_, ?_⟩
    · exact (toUInt32_of_lt (by omega)).ge
    · exact Nat.add_le_add (Nat.mod_le _ _) hsize.le
  have hzone : Within (position + c.buffer.length) (position + c.buffer.length + (w.zoneMapBytes i).length)
      ⟨(w.columnMeta i c position).zoneMapOffset, (w.columnMeta i c position).zoneMapSize⟩ := by
    simp only [columnMeta, hsize]
    exact within_optional (by omega)
  have hbloom : Within (position + c.buffer.length + (w.zoneMapBytes i).length)
      (position + (c.buffer.length + (w.zoneMapBytes i).length + (w.bloomBytes i).length))
      ⟨(w.columnMeta i c position).bloomOffset, (w.columnMeta i c position).bloomSize⟩ := by
    simp only [columnMeta, hsize, ← Nat.add_assoc]
    exact within_optional (by omega)
  constructor
  · refine .cons ?_ (.cons ?_ (List.pairwise_singleton _ _))
    · intro r hr
      rcases List.mem_pair.mp hr with rfl | rfl
      · exact disjoint_of_within hdata hzone
      · exact disjoint_of_within hdata (hbloom.mono (Nat.le_add_right _ _) le_rfl)
    · intro r hr
      rw [List.mem_singleton.mp hr]
      exact disjoint_of_within hzone hbloom
  · intro r hr
    simp only [ColumnMeta.regions, List.mem_cons, List.not_mem_nil, or_false] at hr
    rcases hr with rfl | rfl | rfl
    · exact hdata.mono le_rfl (by omega)
    · exact hzone.mono (by omega) (by omega)
    · exact hbloom.mono (by omega) le_rfl

open Region in
/-- Columns are laid behind each other. -/
theorem finishColumns_regions (start i : Nat) (cs : List WriterColumn) (body : List UInt8)
    (hsize : start + body.length + w.regionsSize i cs < 2 ^ 32) :
    ((w.finishColumns start i cs body).1.flatMap ColumnMeta.regions).Pairwise Disjoint ∧
      ∀ r ∈ (w.finishColumns start i cs body).1.flatMap ColumnMeta.regions,
        Within (start + body.length) (start + body.length + w.regionsSize i cs) r := by
  induction cs generalizing i body with
  | nil => exact ⟨.nil, fun r hr => (List.not_mem_nil hr).elim⟩
  | cons c rest ih =>
    rw [regionsSize] at hsize ⊢
    have hlen : (body ++ w.columnBytes i c).length = body.length + w.regionSize i c := by
      have hfits : c.buffer.length ≤ w.regionSize i c := by
        rw [regionSize]
        omega
      rw [w.columnBytes_of_lt i (by omega)]
      simp only [List.length_append, regionSize, Nat.add_assoc]
    obtain ⟨hhead, hheadWithin⟩ := w.columnMeta_regions i c (show start + body.length + _ < _ by omega)
    obtain ⟨hrest, hrestWithin⟩ := ih (i + 1) (body ++ w.columnBytes i c) (by rw [hlen]; omega)
    rw [hlen] at hrestWithin
    rw [finishColumns]
    show (_ ++ (w.finishColumns start (i + 1) rest (body ++ w.columnBytes i c)).1.flatMap _).Pairwise _ ∧
      ∀ r ∈ _ ++ (w.finishColumns start (i + 1) rest (body ++ w.columnBytes i c)).1.flatMap _, _
    constructor
    · refine List.pairwise_append.mpr ⟨hhead, hrest, fun a ha b hb => ?_⟩
      exact disjoint_of_within (hheadWithin a ha) ((hrestWithin b hb).mono (by omega) le_rfl)
    · intro r hr
      rcases List.mem_append.mp hr with hr | hr
      · exact (hheadWithin r hr).mono le_rfl (by omega)
      · exact (hrestWithin r hr).mono (by omega) (by omega)

/-! ### The file read back -/

theorem getElem?_cut {w : SegmentWriter} {i : Nat} {c : WriterColumn} (hc : w.columns[i]? = some c) :
    w.cut.columns[i]? = some c.cut := by
  rw [cut, List.getElem?_map, hc]
  rfl

section Reopened
variable {calls : List WriterCall} {w} (hw : Written calls w) (haddr : w.cut.Addressable) {i : Nat}
  {a : AddedColumn} (ha : (addedColumns calls)[i]? = some a)
include hw haddr ha

/-- The record of a column, and the bytes it points to. -/
theorem reopened_column : ∃ bytes colMeta,
    createEncoder a.encoding a.type (storeWords a.type.typeSize a.values) a.values.length = .ok bytes ∧
      w.finish.columnMeta i = .ok colMeta ∧ colMeta.type = a.type ∧ colMeta.encoding = a.encoding ∧
      w.finish.readBytes colMeta.offset colMeta.size = .ok (bytes.take (toUInt32 bytes.length)) := by
  obtain ⟨c, hc, hwritten⟩ := hw.column ha
  have hcut := getElem?_cut hc
  obtain ⟨before, after, hbody, hmeta, hfits⟩ := finish_placed haddr hcut
  rw [finish_cut] at hbody hmeta hfits
  rw [regionSize] at hfits
  have hread := Segment.readBytes_region hbody
  refine ⟨c.buffer, _, hwritten.buffer, hmeta, hwritten.type, hwritten.encoding, ?_⟩
  simp only [columnMeta, toUInt32_of_lt (show headerSize w.finish.numColumns + before.length < 2 ^ 32 by omega),
    toUInt32_of_lt (show c.cut.buffer.length < 2 ^ 32 by omega)]
  exact hread

variable (hcalls : ∀ call ∈ calls, call.WellFormed)
include hcalls

/-- The zone map added last, or an empty one. -/
theorem reopened_zoneMap : w.finish.getZoneMap i = .ok (zoneMapOf calls i) := by
  obtain ⟨c, hc, -⟩ := hw.column ha
  have hcut := getElem?_cut hc
  have hzone : w.cut.zoneMaps.getD i {} = zoneMapOf calls i := hw.zoneMaps i
  rw [← finish_cut]
  rcases zoneMapOf_mem calls i with hnone | hcall
  · rw [getZoneMap_empty haddr hcut (by rw [hzone, hnone]), hnone]
  · obtain ⟨hne, hrows⟩ := hcalls _ hcall
    rw [getZoneMap_blocks haddr hcut (by rw [hzone]; exact hne), hzone, Nat.mod_eq_of_lt hrows]

/-- The filter added last, or one nothing was added to, unless the sum for its number of
words did not fit. -/
theorem reopened_bloomFilter_iff :
    w.finish.getBloomFilter i = .ok (bloomFilterOf calls i) ↔ (bloomFilterOf calls i).numBits + 63 < 2 ^ 64 := by
  obtain ⟨c, hc, -⟩ := hw.column ha
  have hcut := getElem?_cut hc
  have hbloom : w.cut.bloomFilters.getD i .empty = bloomFilterOf calls i := hw.bloomFilters i
  have hwell : 0 < (bloomFilterOf calls i).numBits ∧ (bloomFilterOf calls i).numBits < 2 ^ 64 ∧
      (bloomFilterOf calls i).numHashes < 2 ^ 64 := by
    rcases bloomFilterOf_mem calls i with hnone | hcall
    · rw [hnone]
      decide
    · exact hcalls _ hcall
  obtain ⟨hpos, hlt, hhashes⟩ := hwell
  rw [← finish_cut, getBloomFilter_getD hcut (haddr.filterPointed i) (by rw [hbloom]; exact hlt) (by rw [hbloom]; exact hhashes),
    hbloom, Except.ok.injEq]
  constructor
  · intro hread
    by_contra hwide
    rw [BloomFilter.restored_of_ge hlt (not_lt.mp hwide)] at hread
    exact hwide (hread ▸ by decide)
  · exact BloomFilter.restored_of_lt hpos

end Reopened

/-- The file opens as a segment with what the calls wrote, no two of its parts having a
byte in common. -/
def Reopens (layout : MetaLayout) (calls : List WriterCall) (w : SegmentWriter) : Prop :=
  ∃ seg, openSegment layout (w.finishFile layout) = .ok seg ∧
    seg.numColumns = (addedColumns calls).length ∧
    seg.numRows = (addedColumns calls).foldl (fun rows a => max rows a.values.length) 0 ∧
    (∀ (i : Nat) (a : AddedColumn), (addedColumns calls)[i]? = some a →
      seg.columnType i = .ok a.type ∧ seg.columnEncoding i = .ok a.encoding ∧
      (∃ bytes colMeta,
        createEncoder a.encoding a.type (storeWords a.type.typeSize a.values) a.values.length = .ok bytes ∧
        seg.columnMeta i = .ok colMeta ∧
        seg.readBytes colMeta.offset colMeta.size = .ok (bytes.take (toUInt32 bytes.length)) ∧
        (bytes.length < 2 ^ 32 → seg.readBytes colMeta.offset colMeta.size = .ok bytes)) ∧
      seg.getZoneMap i = .ok (zoneMapOf calls i) ∧ seg.getBloomFilter i = .ok (bloomFilterOf calls i)) ∧
    (⟨0, headerSize seg.numColumns⟩ :: seg.regions).Pairwise Region.Disjoint

/-- No column's filter has so many bits that the sum for its words does not fit. -/
def FiltersFit (calls : List WriterCall) : Prop :=
  ∀ i < (addedColumns calls).length, (bloomFilterOf calls i).numBits + 63 < 2 ^ 64

instance (calls : List WriterCall) : Decidable (FiltersFit calls) :=
  inferInstanceAs (Decidable (∀ i < (addedColumns calls).length, _))

/-- **A file below 2^32 bytes gives back what was written to it exactly when its filters
have words for their bits.** -/
theorem reopens_iff (layout : MetaLayout) (calls : List WriterCall) (hcalls : ∀ call ∈ calls, call.WellFormed)
    (w : SegmentWriter) (hrun : run {} calls = .ok w) (hfile : (w.finishFile layout).length < 2 ^ 32) :
    w.Reopens layout calls ↔ FiltersFit calls := by
  have hw := run_written hrun
  have haddr : w.cut.Addressable := by
    rw [Addressable, ← w.length_finishFile layout]
    exact hfile
  have hcolumns : w.columns.length < 2 ^ 32 := by
    have hsize : headerSize w.cut.columns.length ≤ w.cut.fileSize := Nat.le_add_right _ _
    rw [show w.cut.columns.length = w.columns.length from List.length_map _, headerSize, kColumnMetaSize] at hsize
    have hlt : w.cut.fileSize < 2 ^ 32 := haddr
    omega
  have hstorable : w.Storable := storable_run hcalls ⟨by decide, by decide, fun _ hc => (List.not_mem_nil hc).elim⟩ hrun
  have hopen := open_finishFile layout (finish_storable hstorable hcolumns)
  constructor
  · intro hreopens i hi
    obtain ⟨seg, hseg, -, -, hread, -⟩ := hreopens
    cases hopen.symm.trans hseg
    have ha := List.getElem?_eq_getElem hi
    exact (reopened_bloomFilter_iff hw haddr ha hcalls).mp (hread i _ ha).2.2.2.2
  intro hfits
  refine ⟨w.finish, hopen, hw.columns.length_eq.symm, hw.rowCount, fun i a ha => ?_, ?_⟩
  · obtain ⟨bytes, colMeta, hencode, hmeta, htype, hencoding, hread⟩ := reopened_column hw haddr ha
    refine ⟨?_, ?_, ⟨bytes, colMeta, hencode, hmeta, hread, fun hlt => ?_⟩,
      reopened_zoneMap hw haddr ha hcalls, (reopened_bloomFilter_iff hw haddr ha hcalls).mpr
        (hfits i (List.getElem?_eq_some_iff.mp ha).1)⟩
    · rw [Segment.columnType, hmeta, ← htype]
      rfl
    · rw [Segment.columnEncoding, hmeta, ← hencoding]
      rfl
    · rw [hread, toUInt32_of_lt hlt, List.take_length]
  · obtain ⟨hdisjoint, hwithin⟩ :=
      w.cut.finishColumns_regions (headerSize w.cut.columns.length) 0 w.cut.columns [] haddr
    have hregions : w.finish.regions = (w.cut.finishColumns (headerSize w.cut.columns.length) 0
        w.cut.columns []).1.flatMap ColumnMeta.regions := by
      rw [← finish_cut]
      rfl
    rw [hregions]
    refine .cons (fun r hr => ?_) hdisjoint
    have hheader : headerSize w.finish.numColumns = headerSize w.cut.columns.length := by
      rw [← finish_cut]
      rfl
    have hheaderWithin : Region.Within 0 (headerSize w.cut.columns.length) ⟨0, headerSize w.cut.columns.length⟩ :=
      .inr ⟨le_rfl, by simp⟩
    rw [hheader]
    exact Region.disjoint_of_within hheaderWithin (hwithin r hr)

/-- Two columns, one with a filter and one with a zone map. -/
def annotatedCalls : List WriterCall :=
  [.addColumn .int32 [3, -1, 4] [false, true, false] .plain, .addColumn .int64 [7, 7, 9] [false, false, false] .rle,
   .addZoneMap 1 {entries := [{minInt := 7, maxInt := 9, rowCount := 3, hasMinMax := true}], blockRows := 128},
   .addBloomFilter 0 (.ofSize 70 3)]

theorem annotatedCalls_wellFormed : ∀ call ∈ annotatedCalls, call.WellFormed := by
  simp [annotatedCalls, WriterCall.WellFormed, BloomFilter.ofSize]

/-- The file of the two columns is made, and stays small. -/
theorem annotatedCalls_run :
    ∃ w, run {} annotatedCalls = .ok w ∧ (w.finishFile .lp64).length < 2 ^ 32 := by
  have hrun : (match run {} annotatedCalls with
      | .error _ => false
      | .ok w => decide ((w.finishFile .lp64).length < 2 ^ 32)) = true := by decide +kernel
  cases h : run {} annotatedCalls with
  | error e =>
    rw [h] at hrun
    cases hrun
  | ok w =>
    rw [h] at hrun
    exact ⟨w, rfl, of_decide_eq_true hrun⟩

theorem annotatedCalls_reopened :
    ∃ w, run {} annotatedCalls = .ok w ∧ w.Reopens .lp64 annotatedCalls := by
  obtain ⟨w, hrun, hfile⟩ := annotatedCalls_run
  exact ⟨w, hrun, (reopens_iff .lp64 annotatedCalls annotatedCalls_wellFormed w hrun hfile).mpr (by decide)⟩

/-- One column, and a filter of as many bits as can be asked for: it has no words. -/
def wordlessCalls : List WriterCall :=
  [.addColumn .int32 [5] [false] .plain, .addBloomFilter 0 (.ofSize (2 ^ 64 - 1) 3)]

theorem wordlessCalls_wellFormed : ∀ call ∈ wordlessCalls, call.WellFormed := by
  simp [wordlessCalls, WriterCall.WellFormed, BloomFilter.ofSize]

/-- The filter of the file is not the one that was added. -/
theorem wordlessCalls_not_reopened :
    (∀ call ∈ wordlessCalls, call.WellFormed) ∧ ∃ w, run {} wordlessCalls = .ok w ∧
      (w.finishFile .lp64).length < 2 ^ 32 ∧ ¬ w.Reopens .lp64 wordlessCalls := by
  refine ⟨wordlessCalls_wellFormed, (run {} wordlessCalls).toOption.getD {}, rfl, by decide +kernel, fun h => ?_⟩
  obtain ⟨seg, hopen, -, -, hread, -⟩ := h
  have hstored : (do
      let seg ← openSegment .lp64 (((run {} wordlessCalls).toOption.getD {}).finishFile .lp64)
      let bf ← seg.getBloomFilter 0
      return bf.numBits : Outcome Nat) = .ok kBloomFilterBits := by decide +kernel
  rw [hopen, bind_ok, (hread 0 _ rfl).2.2.2.2] at hstored
  exact absurd hstored (by decide)

end SegmentWriter

end ColumnarStore
