import ColumnarStore.Segment.Writer

/-! The layout of a finished file.

A field that points into the file has 32 bits. A region whose own offset and size fit them
(`Pointed`) reads back, whatever lies before and behind it, and the readers then return
what the writer was given: the encoded values, the zone map, the filter. In a file below
2^32 bytes every region is one of these. -/
namespace ColumnarStore
open Foundation Encoding

namespace SegmentWriter

theorem toUInt32_of_lt {n : Nat} (h : n < 2 ^ 32) : toUInt32 n = n := Nat.mod_eq_of_lt h

/-! ### Positions -/

/-- The bytes of the first `k` of some columns, of which the first is column `i`. -/
def bytesBefore (w : SegmentWriter) : Nat → List WriterColumn → Nat → List UInt8
  | _, _, 0 => []
  | _, [], _ => []
  | i, c :: rest, k + 1 => w.columnBytes i c ++ w.bytesBefore (i + 1) rest k

/-- The file position of column `k`. -/
def columnStart (w : SegmentWriter) (k : Nat) : Nat :=
  headerSize w.columns.length + (w.bytesBefore 0 w.columns k).length

/-- The file position of the zone map of column `k`, behind its values. -/
def zoneMapStart (w : SegmentWriter) (k : Nat) (c : WriterColumn) : Nat :=
  w.columnStart k + toUInt32 c.buffer.length

/-- The file position of the filter of column `k`, behind its zone map. -/
def bloomStart (w : SegmentWriter) (k : Nat) (c : WriterColumn) : Nat :=
  w.zoneMapStart k c + (w.zoneMapBytes k).length

variable {w : SegmentWriter}

theorem finishColumns_append (start i : Nat) (cs : List WriterColumn) (body : List UInt8) :
    ∃ more, (w.finishColumns start i cs body).2 = body ++ more := by
  induction cs generalizing i body with
  | nil => exact ⟨[], (List.append_nil body).symm⟩
  | cons c rest ih =>
    obtain ⟨more, hmore⟩ := ih (i + 1) (body ++ w.columnBytes i c)
    exact ⟨w.columnBytes i c ++ more, by rw [finishColumns, ← List.append_assoc]; exact hmore⟩

/-- The entry of a column, and its bytes behind those of the columns before it. -/
theorem finishColumns_get (start i : Nat) {cs : List WriterColumn} (body : List UInt8) {k : Nat}
    {c : WriterColumn} (hc : cs[k]? = some c) :
    (w.finishColumns start i cs body).1[k]? =
        some (w.columnMeta (i + k) c (start + (body ++ w.bytesBefore i cs k).length)) ∧
      ∃ after, (w.finishColumns start i cs body).2 =
        body ++ w.bytesBefore i cs k ++ (w.columnBytes (i + k) c ++ after) := by
  induction cs generalizing i body k with
  | nil => cases hc
  | cons first rest ih =>
    cases k with
    | zero =>
      cases hc
      obtain ⟨after, hafter⟩ := finishColumns_append (w := w) start (i + 1) rest (body ++ w.columnBytes i c)
      refine ⟨by rw [bytesBefore, List.append_nil]; rfl, after, ?_⟩
      rw [bytesBefore, List.append_nil, ← List.append_assoc]
      exact hafter
    | succ k =>
      obtain ⟨hentry, after, hbody⟩ := ih (i + 1) (body ++ w.columnBytes i first) hc
      have hbefore : body ++ w.columnBytes i first ++ w.bytesBefore (i + 1) rest k =
          body ++ w.bytesBefore i (first :: rest) (k + 1) := by rw [bytesBefore, List.append_assoc]
      rw [Nat.add_right_comm, hbefore] at hentry hbody
      exact ⟨hentry, after, hbody⟩

theorem finish_get {k : Nat} {c : WriterColumn} (hc : w.columns[k]? = some c) :
    w.finish.columnMeta k = .ok (w.columnMeta k c (w.columnStart k)) ∧
      ∃ after, w.finish.body = w.bytesBefore 0 w.columns k ++ (w.columnBytes k c ++ after) := by
  obtain ⟨hentry, after, hbody⟩ := finishColumns_get (headerSize w.columns.length) 0 [] hc
  rw [Nat.zero_add, List.nil_append] at hentry hbody
  exact ⟨orFault_eq_ok.mpr hentry, after, hbody⟩

/-! ### Reading a region -/

/-- The offset and the size of a region that has bytes fit their fields. -/
def Pointed (start : Nat) (bytes : List UInt8) : Prop :=
  bytes = [] ∨ start < 2 ^ 32 ∧ bytes.length < 2 ^ 32

/-- The filter of column `k` is where its entry says, or the column has none. -/
def FilterPointed (w : SegmentWriter) (k : Nat) : Prop :=
  ∀ c ∈ w.columns[k]?, Pointed (w.bloomStart k c) (w.bloomBytes k)

theorem Pointed.size_eq {start : Nat} {bytes : List UInt8} (h : Pointed start bytes) :
    toUInt32 bytes.length = bytes.length := by
  rcases h with rfl | ⟨-, hsize⟩
  · rfl
  · exact toUInt32_of_lt hsize

theorem Pointed.readBytes {start : Nat} {bytes : List UInt8} (h : Pointed start bytes) {s : Segment}
    {before after : List UInt8} (hbody : s.body = before ++ (bytes ++ after))
    (hstart : start = headerSize s.numColumns + before.length) :
    s.readBytes (toUInt32 start) (toUInt32 bytes.length) = .ok bytes := by
  rw [h.size_eq]
  rcases h with rfl | ⟨hlt, -⟩
  · rw [Segment.readBytes, List.length_nil, if_pos rfl]
  · rw [toUInt32_of_lt hlt, hstart]
    exact Segment.readBytes_region hbody

/-- A region that may be absent, whose entry is 0 and 0 then. -/
theorem Pointed.readOptional {α : Type} {start : Nat} {bytes : List UInt8} (h : Pointed start bytes) {s : Segment}
    {before after : List UInt8} (hbody : s.body = before ++ (bytes ++ after))
    (hstart : start = headerSize s.numColumns + before.length) (absent : α) (parse : List UInt8 → Outcome α) :
    (if toUInt32 bytes.length = 0 then .ok absent
      else s.readBytes (if bytes = [] then 0 else toUInt32 start) (toUInt32 bytes.length) >>= parse) =
      if bytes = [] then .ok absent else parse bytes := by
  by_cases hempty : bytes = []
  · rw [hempty]
    rfl
  · have hsize : toUInt32 bytes.length ≠ 0 := by
      rw [h.size_eq]
      exact fun hzero => hempty (List.eq_nil_of_length_eq_zero hzero)
    rw [if_neg hsize, if_neg hempty, if_neg hempty, h.readBytes hbody hstart, bind_ok]

theorem length_take_toUInt32 (bytes : List UInt8) :
    (bytes.take (toUInt32 bytes.length)).length = toUInt32 bytes.length := by
  rw [List.length_take, Nat.min_eq_left (show toUInt32 bytes.length ≤ bytes.length from Nat.mod_le _ _)]

section Readers
variable {k : Nat} {c : WriterColumn} (hc : w.columns[k]? = some c)
include hc

/-- A column is decoded from the bytes it was encoded into. -/
theorem getColumn_pointed (h : Pointed (w.columnStart k) c.buffer) :
    w.finish.getColumn k = (do
      let column ← orFault .nullPointer (Column.create c.stats.type)
      column.decode (createDecoder c.encoding c.stats.type) c.buffer) := by
  obtain ⟨hmeta, after, hbody⟩ := finish_get hc
  rw [columnBytes, h.size_eq, List.take_length, List.append_assoc, List.append_assoc] at hbody
  rw [Segment.getColumn, hmeta, bind_ok]
  simp only [columnMeta, h.readBytes hbody rfl, bind_ok]

theorem getZoneMap_pointed (h : Pointed (w.zoneMapStart k c) (w.zoneMapBytes k)) :
    w.finish.getZoneMap k = if w.zoneMapBytes k = [] then .ok {} else ZoneMap.read (w.zoneMapBytes k) := by
  obtain ⟨hmeta, after, hbody⟩ := finish_get hc
  rw [columnBytes, List.append_assoc, List.append_assoc, ← List.append_assoc] at hbody
  have hstart : w.zoneMapStart k c = headerSize w.finish.numColumns +
      (w.bytesBefore 0 w.columns k ++ c.buffer.take (toUInt32 c.buffer.length)).length := by
    rw [zoneMapStart, columnStart, List.length_append, length_take_toUInt32, Nat.add_assoc]
    rfl
  rw [Segment.getZoneMap, hmeta, bind_ok]
  exact h.readOptional hbody hstart {} ZoneMap.read

theorem getBloomFilter_pointed (h : Pointed (w.bloomStart k c) (w.bloomBytes k)) :
    w.finish.getBloomFilter k = if w.bloomBytes k = [] then .ok .empty else BloomFilter.read (w.bloomBytes k) := by
  obtain ⟨hmeta, after, hbody⟩ := finish_get hc
  rw [columnBytes, List.append_assoc, ← List.append_assoc (w.bytesBefore 0 w.columns k)] at hbody
  have hstart : w.bloomStart k c = headerSize w.finish.numColumns + (w.bytesBefore 0 w.columns k ++
      (c.buffer.take (toUInt32 c.buffer.length) ++ w.zoneMapBytes k)).length := by
    rw [bloomStart, zoneMapStart, columnStart, List.length_append, List.length_append, length_take_toUInt32,
      Nat.add_assoc, Nat.add_assoc]
    rfl
  rw [Segment.getBloomFilter, hmeta, bind_ok]
  exact h.readOptional hbody hstart .empty BloomFilter.read

end Readers

/-! ### Sizes -/

/-- The bytes of a column, its zone map and its filter. -/
def regionSize (w : SegmentWriter) (i : Nat) (c : WriterColumn) : Nat :=
  c.buffer.length + (w.zoneMapBytes i).length + (w.bloomBytes i).length

def regionsSize (w : SegmentWriter) : Nat → List WriterColumn → Nat
  | _, [] => 0
  | i, c :: rest => w.regionSize i c + regionsSize w (i + 1) rest

def fileSize (w : SegmentWriter) : Nat :=
  headerSize w.columns.length + w.regionsSize 0 w.columns

/-- Every position in the file fits the 32 bits of an offset. -/
def Addressable (w : SegmentWriter) : Prop := w.fileSize < 2 ^ 32

instance (w : SegmentWriter) : Decidable w.Addressable := inferInstanceAs (Decidable (_ < _))

theorem columnBytes_of_lt (w : SegmentWriter) (i : Nat) {c : WriterColumn}
    (h : c.buffer.length < 2 ^ 32) :
    w.columnBytes i c = c.buffer ++ (w.zoneMapBytes i ++ w.bloomBytes i) := by
  rw [columnBytes, toUInt32, Nat.mod_eq_of_lt h, List.take_length, List.append_assoc]

/-- What stands before a column and its own region are parts of the whole. -/
theorem bytesBefore_add_le (i : Nat) {cs : List WriterColumn} {k : Nat} {c : WriterColumn} (hc : cs[k]? = some c) :
    (w.bytesBefore i cs k).length + w.regionSize (i + k) c ≤ w.regionsSize i cs := by
  induction cs generalizing i k with
  | nil => cases hc
  | cons first rest ih =>
    cases k with
    | zero =>
      cases hc
      simp [bytesBefore, regionsSize]
    | succ k =>
      have hrest := ih (i + 1) hc
      have hfirst : (w.columnBytes i first).length ≤ w.regionSize i first := by
        simp only [columnBytes, regionSize, List.length_append, List.length_take]
        omega
      rw [Nat.add_right_comm, Nat.add_assoc] at hrest
      rw [bytesBefore, regionsSize, List.length_append]
      omega

section Finished
variable (haddr : w.Addressable) {i : Nat} {c : WriterColumn}
include haddr

theorem Addressable.region_lt (hc : w.columns[i]? = some c) : w.columnStart i + w.regionSize i c < 2 ^ 32 := by
  have hle := bytesBefore_add_le (w := w) 0 hc
  have hsize : w.fileSize < 2 ^ 32 := haddr
  rw [Nat.zero_add] at hle
  rw [fileSize] at hsize
  rw [columnStart]
  omega

/-- Column `i` of the file, taken apart: what stands before and after it, and its entry. -/
theorem finish_placed (hc : w.columns[i]? = some c) : ∃ before after,
    w.finish.body = before ++ (c.buffer ++ (w.zoneMapBytes i ++ (w.bloomBytes i ++ after))) ∧
      w.finish.columnMeta i =
        .ok (w.columnMeta i c (headerSize w.finish.numColumns + before.length)) ∧
      headerSize w.finish.numColumns + before.length + w.regionSize i c < 2 ^ 32 := by
  have hfits := haddr.region_lt hc
  obtain ⟨hmeta, after, hbody⟩ := finish_get hc
  have hsize : c.buffer.length < 2 ^ 32 := by
    rw [regionSize] at hfits
    omega
  rw [w.columnBytes_of_lt i hsize, List.append_assoc, List.append_assoc] at hbody
  exact ⟨_, after, hbody, hmeta, hfits⟩

/-! ### What the readers return -/

/-- Every region of the file is where its entry says. -/
theorem Addressable.pointed (hc : w.columns[i]? = some c) :
    Pointed (w.columnStart i) c.buffer ∧ Pointed (w.zoneMapStart i c) (w.zoneMapBytes i) ∧
      Pointed (w.bloomStart i c) (w.bloomBytes i) := by
  have hfits := haddr.region_lt hc
  rw [regionSize] at hfits
  have hsize : toUInt32 c.buffer.length = c.buffer.length := toUInt32_of_lt (by omega)
  rw [bloomStart, zoneMapStart, hsize]
  exact ⟨.inr (by omega), .inr (by omega), .inr (by omega)⟩

theorem Addressable.filterPointed (i : Nat) : w.FilterPointed i := fun _ hc => (haddr.pointed hc).2.2

omit haddr in
theorem zoneMapBytes_eq (w : SegmentWriter) (i : Nat) : w.zoneMapBytes i =
    if 0 < (w.zoneMaps.getD i {}).numBlocks then (w.zoneMaps.getD i {}).write else [] := by
  rw [zoneMapBytes, List.getD_eq_getElem?_getD]
  cases w.zoneMaps[i]? <;> rfl

/-- A column whose zone map has no blocks reads as one without a zone map. -/
theorem getZoneMap_empty (hc : w.columns[i]? = some c) (hempty : (w.zoneMaps.getD i {}).entries = []) :
    w.finish.getZoneMap i = .ok {} := by
  rw [getZoneMap_pointed hc (haddr.pointed hc).2.1, zoneMapBytes_eq, ZoneMap.numBlocks, hempty]
  rfl

/-- A zone map with blocks comes back, its block size cut to 32 bits. -/
theorem getZoneMap_blocks (hc : w.columns[i]? = some c) (hblocks : (w.zoneMaps.getD i {}).entries ≠ []) :
    w.finish.getZoneMap i =
      .ok {w.zoneMaps.getD i {} with blockRows := (w.zoneMaps.getD i {}).blockRows % 2 ^ 32} := by
  have hbytes := w.zoneMapBytes_eq i
  rw [ZoneMap.numBlocks, if_pos (List.length_pos_iff_ne_nil.mpr hblocks)] at hbytes
  generalize w.zoneMaps.getD i {} = zm at hbytes
  have hfits := haddr.region_lt hc
  have hentries : zm.entries.length < 2 ^ 32 := by
    rw [regionSize, hbytes] at hfits
    have hlen : zm.entries.length ≤ zm.write.length := by
      have hflat : zm.entries.length ≤ (zm.entries.flatMap ZoneMap.storeEntry).length := by
        induction zm.entries with
        | nil => exact Nat.le_refl 0
        | cons e rest ih =>
          have he : 0 < (ZoneMap.storeEntry e).length := by simp [ZoneMap.storeEntry]
          rw [List.flatMap_cons, List.length_append, List.length_cons]
          omega
      rw [ZoneMap.write, List.length_append]
      omega
    omega
  have hne : zm.write ≠ [] := by
    rw [ZoneMap.write, ← List.length_pos_iff_ne_nil]
    simp
  rw [getZoneMap_pointed hc (haddr.pointed hc).2.1, hbytes, if_neg hne]
  exact ZoneMap.read_write hentries

end Finished

/-- A filter with words comes back; a column without one reads as one nothing was added to. -/
theorem getBloomFilter_getD {i : Nat} {c : WriterColumn} (hc : w.columns[i]? = some c)
    (hpointed : w.FilterPointed i)
    (hbits : (w.bloomFilters.getD i .empty).numBits < 2 ^ 64)
    (hhashes : (w.bloomFilters.getD i .empty).numHashes < 2 ^ 64) :
    w.finish.getBloomFilter i = .ok (w.bloomFilters.getD i .empty).restored := by
  rw [getBloomFilter_pointed hc (hpointed c hc)]
  rw [List.getD_eq_getElem?_getD] at hbits hhashes ⊢
  cases hget : w.bloomFilters[i]? with
  | none =>
    rw [if_pos (by simp [bloomBytes, hget]), Option.getD_none, BloomFilter.restored_of_lt (by decide) (by decide)]
  | some bf =>
    rw [hget, Option.getD_some] at hbits hhashes
    rw [Option.getD_some, BloomFilter.restored]
    by_cases hwords : bf.bits = []
    · have hbytes : w.bloomBytes i = [] := by simp [bloomBytes, hget, BloomFilter.size, hwords]
      rw [if_pos hbytes, if_pos hwords]
    · have hsize : 0 < bf.size := by
        rw [BloomFilter.size]
        have hlen := List.length_pos_iff_ne_nil.mpr hwords
        omega
      have hbytes : w.bloomBytes i = bf.write := by simp [bloomBytes, hget, hsize]
      have hne : bf.write ≠ [] := by
        rw [← List.length_pos_iff_ne_nil]
        simp [BloomFilter.write]
      rw [hbytes, if_neg hne, if_neg hwords]
      exact BloomFilter.read_write hbits hhashes

end SegmentWriter

end ColumnarStore
