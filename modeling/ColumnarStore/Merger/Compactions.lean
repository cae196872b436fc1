import ColumnarStore.Merger.Concatenation
import ColumnarStore.Scanner.Tables

/-! Merging the results of merges.

What a merge gives can be merged again, with neighbours that were not merged so far or
with results of other merges. However the segments of tables of one shape are replaced,
some neighbours at a time, by what merging them gives, the merges go through and the
segments hold the same rows in the same order (`rounds_keep_rows`), so a scan of one
segment after the other delivers what it delivered before. The rows of a table are its
`records`; `Holds` is what every round keeps. -/
namespace ColumnarStore
open Foundation Predicates Scanner

/-! ### The rows of a table -/

namespace IntegerTable
variable {t : IntegerTable} {chain : Chain}

/-- The rows, each as the bytes that every column holds there. -/
def records (t : IntegerTable) : List (Nat → List UInt8) :=
  (List.range t.rows).map fun r c => (t.words c).getD r []

/-- The number that a column's bytes stand for. -/
def number (types : List DataType) (record : Nat → List UInt8) (c : Nat) : Int :=
  match types[c]? with
  | none => 0
  | some type => (BitVec.ofNat (8 * type.typeSize) (leValue (record c))).toInt

theorem words_absent {i : Nat} (h : t.types[i]? = none) : t.words i = [] := by
  rw [types, List.getElem?_map, Option.map_eq_none_iff] at h
  rw [words, h]

/-- The rows have in each column its words. -/
theorem map_records {i : Nat} {type : DataType} (htype : t.types[i]? = some type) :
    t.records.map (fun record => record i) = t.words i := by
  have hlen := (length_words htype).1
  rw [records, List.map_map]
  refine List.ext_getElem (by simp [hlen]) fun r hr hr' => ?_
  rw [List.getElem_map, List.getElem_range]
  exact List.getD_eq_getElem _ _ hr'

theorem records_absent {i : Nat} (h : t.types[i]? = none) {record : Nat → List UInt8} (hrecord : record ∈ t.records) :
    record i = [] := by
  obtain ⟨r, -, rfl⟩ := List.mem_map.mp hrecord
  show (t.words i).getD r [] = []
  rw [words_absent h]
  rfl

/-- Rows that agree in every column are the same. -/
theorem eq_of_map_eq {xs ys : List (Nat → List UInt8)}
    (h : ∀ i, (xs.map fun record => record i) = ys.map fun record => record i) : xs = ys := by
  have hlen : xs.length = ys.length := by
    have hzero := congrArg List.length (h 0)
    rwa [List.length_map, List.length_map] at hzero
  refine List.ext_getElem hlen fun r hr hr' => ?_
  funext i
  have hcolumn := List.getElem_of_eq (h i) (i := r) (by rwa [List.length_map])
  rwa [List.getElem_map, List.getElem_map] at hcolumn

/-- A table that has the words of others one behind the other has their rows. -/
theorem records_concat {types : List DataType} (hne : types ≠ []) (htypes : t.types = types)
    {tables : List IntegerTable}
    (htables : ∀ t' ∈ tables, t'.types = types)
    (hwords : ∀ (i : Nat) (type : DataType), types[i]? = some type → t.words i = tables.flatMap (·.words i)) :
    t.records = tables.flatMap records := by
  have hpresent : ∀ (i : Nat) (type : DataType), types[i]? = some type →
      (t.records.map fun record => record i) = (tables.flatMap records).map fun record => record i := by
    intro i type htype
    rw [map_records (htypes ▸ htype), hwords i type htype, List.map_flatMap]
    simp only [List.flatMap_def]
    congr 1
    exact List.map_congr_left fun t' ht' => (map_records ((htables t' ht').symm ▸ htype)).symm
  have hlen : t.records.length = (tables.flatMap records).length := by
    have hzero := congrArg List.length (hpresent 0 _ (List.getElem?_eq_getElem (List.length_pos_iff_ne_nil.mpr hne)))
    rwa [List.length_map, List.length_map] at hzero
  refine eq_of_map_eq fun i => ?_
  cases htype : types[i]? with
  | some type => exact hpresent i type htype
  | none =>
    have hnone : ∀ record ∈ t.records, record i = [] := fun record => records_absent (htypes ▸ htype)
    have hnone' : ∀ record ∈ tables.flatMap records, record i = [] := by
      intro record hrecord
      obtain ⟨t', ht', hrecord⟩ := List.mem_flatMap.mp hrecord
      exact records_absent ((htables t' ht').symm ▸ htype) hrecord
    rw [List.map_congr_left hnone, List.map_congr_left hnone', List.map_const', List.map_const', hlen]

/-- The numbers of a row are those of its bytes. -/
theorem number_record {r : Nat} (hr : r < t.rows) :
    number t.types (fun c => (t.words c).getD r []) = t.value r := by
  funext c
  unfold number value
  rw [types, List.getElem?_map]
  cases hc : t.columns[c]? with
  | none => rfl
  | some col =>
    have hin : r < col.values.length := by rwa [t.equalLength col (List.mem_of_getElem? hc)]
    have hword : (t.words c).getD r [] = storeWord col.type.typeSize col.values[r] := by
      rw [words, hc]
      show (col.values.map _).getD r [] = _
      rw [List.getD_eq_getElem _ _ (by rwa [List.length_map]), List.getElem_map]
    show (BitVec.ofNat (8 * col.type.typeSize) (leValue ((t.words c).getD r []))).toInt = (col.values.getD r 0).toInt
    rw [hword, ofNat_leValue_storeWord, List.getD_eq_getElem _ _ hin]

/-- The matching rows of a table, by their bytes. -/
theorem map_matching (t : IntegerTable) (chain : Chain) :
    ((t.matching chain).map fun r c => (t.words c).getD r []) =
      t.records.filter fun record => chain.eval (number t.types record) := by
  rw [records, List.filter_map, matching]
  congr 1
  refine List.filter_congr fun r hr => ?_
  rw [Function.comp_apply, number_record (List.mem_range.mp hr)]

end IntegerTable

/-! ### What a scan delivers, by rows -/

/-- The calls hand out these rows. -/
def Scanner.HandsOut (batches : List Batch) (rows : List (Nat → List UInt8)) : Prop :=
  deliveredRows batches = rows.length ∧ ∀ c, delivered batches c = rows.flatMap fun row => row c

namespace Scanner.HandsOut

theorem append {a b : List Batch} {rows rows' : List (Nat → List UInt8)} (ha : HandsOut a rows)
    (hb : HandsOut b rows') : HandsOut (a ++ b) (rows ++ rows') := by
  refine ⟨?_, fun c => ?_⟩
  · rw [deliveredRows_append, ha.1, hb.1, List.length_append]
  · have ha := ha.2 c
    have hb := hb.2 c
    rw [delivered] at ha hb ⊢
    rw [List.flatMap_append, ha, hb, List.flatMap_append]

theorem sameRows {a b : List Batch} {rows : List (Nat → List UInt8)} (ha : HandsOut a rows) (hb : HandsOut b rows) :
    SameRows a b :=
  ⟨ha.1.trans hb.1.symm, fun c => (ha.2 c).trans (hb.2 c).symm⟩

end Scanner.HandsOut

namespace IntegerTable
variable {t : IntegerTable} {chain : Chain}

/-- Rows of the columns that are read back, by their bytes. -/
theorem handsOut {batches : List Batch} {rows : List Nat} (h : Delivers t.readColumns batches rows)
    (hrows : ∀ r ∈ rows, r < t.rows) : HandsOut batches (rows.map fun r c => (t.words c).getD r []) := by
  refine ⟨by rw [h.count, List.length_map], fun c => ?_⟩
  rw [List.flatMap_map]
  show delivered batches c = rows.flatMap fun r => (t.words c).getD r []
  cases hc : t.columns[c]? with
  | none =>
    have habsent : t.readColumns[c]? = none := by rw [readColumns, List.getElem?_map, hc]; rfl
    rw [h.absent habsent, words, hc]
    exact (List.flatMap_eq_nil_iff.mpr fun r _ => rfl).symm
  | some col =>
    have hread : t.readColumns[c]? = some (.ofValues col.type col.values) := by
      rw [readColumns, List.getElem?_map, hc]
      rfl
    rw [h.values c _ hread]
    show (rows.map fun r => col.values.getD r 0).flatMap (storeWord col.type.typeSize) = _
    rw [List.flatMap_map, List.flatMap_def, List.flatMap_def]
    congr 1
    refine List.map_congr_left fun r hr => ?_
    have hin : r < col.values.length := by
      rw [t.equalLength col (List.mem_of_getElem? hc)]
      exact hrows r hr
    rw [words, hc]
    show storeWord _ (col.values.getD r 0) = (col.values.map _).getD r []
    rw [List.getD_eq_getElem _ _ hin, List.getD_eq_getElem _ _ (by rwa [List.length_map]), List.getElem_map]

/-- A stored table whose columns fit is a segment that can be scanned. -/
theorem StoredIn.exists_segmentOf {seg : Segment} (h : t.StoredIn seg) (hfixed : t.FixedWidth)
    (hfits : ∀ i, FitsAt t.types t.rows i) : ∃ s : IntactSegment, s.segment = seg ∧ t.SegmentOf s := by
  obtain ⟨w, hw, rfl⟩ := h
  exact hw.exists_segmentOf fun i c hc => hw.getColumn hfixed hc fun j _ => hfits j

/-- What a scan of a stored table hands out. -/
theorem StoredIn.scan {seg : Segment} (h : t.StoredIn seg) (hfixed : t.FixedWidth)
    (hfits : ∀ i, FitsAt t.types t.rows i) (build : Build) (hcolumns : t.HasColumns chain) (hnots : chain.headNots = 0)
    (hrep : t.Representable chain) (context : ScanContext) (hpos : 1 ≤ context.blockSize)
    (hsize : context.blockSize ≤ kScanBlockSize) :
    ∃ stats batches, scanSegment build seg context chain.predicate = .ok (stats, batches) ∧
      HandsOut batches (if asksFilter context chain then []
        else t.records.filter fun record => chain.eval (number t.types record)) := by
  obtain ⟨s, rfl, hof⟩ := h.exists_segmentOf hfixed hfits
  obtain ⟨stats, batches, hscan, hdelivers, -⟩ := hof.scan build hcolumns hnots hrep context hpos hsize
  refine ⟨stats, batches, hscan, ?_⟩
  have hin : ∀ r ∈ if asksFilter context chain then [] else t.matching chain, r < t.rows := by
    intro r hr
    split at hr
    · exact (List.not_mem_nil hr).elim
    · exact List.mem_range.mp (List.mem_of_mem_filter hr)
  have hout := handsOut hdelivers hin
  split at hout
  · next hasks => rw [if_pos hasks]; exact hout
  · next hasks =>
    rw [if_neg hasks, ← map_matching]
    exact hout

end IntegerTable

namespace Merger
variable {types : List DataType}

/-! ### Rounds -/

/-- Some neighbours are replaced by what a merge task with them gives. -/
def MergeRound (segments segments' : List Segment) : Prop :=
  ∃ before after task merged, task.inputSegments ≠ [] ∧ segments = before ++ task.inputSegments ++ after ∧
    SegmentMerger.executeMerge task = .ok merged ∧ segments' = before ++ merged :: after

/-- The segments store tables of the types, of no more rows than `total`, that have these
rows one behind the other. -/
structure Holds (types : List DataType) (total : Nat) (rows : List (Nat → List UInt8)) (tables : List IntegerTable)
    (segments : List Segment) : Prop where
  stored : List.Forall₂ IntegerTable.StoredIn tables segments
  shape : ∀ t ∈ tables, t.types = types ∧ t.FixedWidth
  total : (tables.map IntegerTable.rows).sum ≤ total
  rows : tables.flatMap IntegerTable.records = rows

/-- The delta store of a task is not read. -/
theorem executeMerge_eq (task : MergeTask) : SegmentMerger.executeMerge task =
    SegmentMerger.executeMerge {inputSegments := task.inputSegments, maxTimestamp := task.maxTimestamp} := by
  unfold SegmentMerger.executeMerge
  rfl

section Rounds
variable {total : Nat} {rows : List (Nat → List UInt8)} {tables : List IntegerTable}
  {before picked after : List Segment} (hne : types ≠ []) (hfits : ∀ i, FitsAt types total i)
include hne hfits

/-- Merging neighbours goes through, and the segments hold the same rows. -/
theorem Holds.merge (h : Holds types total rows tables (before ++ picked ++ after)) (hpicked : picked ≠ [])
    (maxTimestamp : Nat) :
    ∃ merged tables', SegmentMerger.executeMerge {inputSegments := picked, maxTimestamp} = .ok merged ∧
      Holds types total rows tables' (before ++ merged :: after) ∧
      merged.numRows = (picked.map Segment.numRows).sum := by
  obtain ⟨hstored, hshape, htotal, hrows⟩ := h
  obtain ⟨first, last, rfl, hfirst, hlast⟩ :
      ∃ first last, tables = first ++ last ∧ List.Forall₂ IntegerTable.StoredIn first (before ++ picked) ∧
        List.Forall₂ IntegerTable.StoredIn last after :=
    ⟨_, _, (List.take_append_drop _ _).symm, List.forall₂_take_append _ _ _ hstored,
      List.forall₂_drop_append _ _ _ hstored⟩
  obtain ⟨left, middle, rfl, hleft, hmiddle⟩ :
      ∃ left middle, first = left ++ middle ∧ List.Forall₂ IntegerTable.StoredIn left before ∧
        List.Forall₂ IntegerTable.StoredIn middle picked :=
    ⟨_, _, (List.take_append_drop _ _).symm, List.forall₂_take_append _ _ _ hfirst,
      List.forall₂_drop_append _ _ _ hfirst⟩
  have hmem : ∀ t ∈ middle, t ∈ left ++ middle ++ last := fun t ht =>
    List.mem_append_left _ (List.mem_append_right _ ht)
  have hsome : middle ≠ [] := by
    rintro rfl
    cases hmiddle
    exact hpicked rfl
  simp only [List.map_append, List.sum_append] at htotal
  have hmiddleFits : ∀ t ∈ middle, t.types = types ∧ t.FixedWidth ∧ ∀ j, FitsAt types t.rows j := by
    intro t ht
    have hle : t.rows ≤ (middle.map IntegerTable.rows).sum := List.le_sum_of_mem (List.mem_map_of_mem ht)
    exact ⟨(hshape t (hmem t ht)).1, (hshape t (hmem t ht)).2, fun j => (hfits j).mono (by omega)⟩
  obtain ⟨merged, t, hmerge, hmerged, htypes, hfixed, hle, hcount, hwords⟩ :=
    SegmentMerger.executeMerge_stored hsome hmiddle hmiddleFits maxTimestamp
  refine ⟨merged, left ++ t :: last, hmerge, ⟨List.rel_append hleft (.cons hmerged hlast), ?_, ?_, ?_⟩, hcount⟩
  · intro t' ht'
    rcases List.mem_append.mp ht' with ht' | ht'
    · exact hshape t' (List.mem_append_left _ (List.mem_append_left _ ht'))
    · rcases List.mem_cons.mp ht' with rfl | ht'
      · exact ⟨htypes, hfixed⟩
      · exact hshape t' (List.mem_append_right _ ht')
  · rw [List.map_append, List.sum_append, List.map_cons, List.sum_cons]
    omega
  · rw [← hrows, List.flatMap_append, List.flatMap_cons, List.flatMap_append, List.flatMap_append, List.append_assoc,
      IntegerTable.records_concat hne htypes (fun t' ht' => (hmiddleFits t' ht').1) hwords]

/-- What holds after any number of rounds. -/
theorem Holds.rounds {segments reached : List Segment} (h : Holds types total rows tables segments)
    (hrounds : Relation.ReflTransGen MergeRound segments reached) :
    ∃ tables', Holds types total rows tables' reached ∧
      (reached.map Segment.numRows).sum = (segments.map Segment.numRows).sum := by
  induction hrounds with
  | refl => exact ⟨tables, h, rfl⟩
  | @tail between reached _ hround ih =>
    obtain ⟨tables', hbetween, hsum⟩ := ih
    obtain ⟨before, after, task, merged, hpicked, rfl, hmerge, rfl⟩ := hround
    obtain ⟨merged', tables'', hmerge', hreached, hcount⟩ := hbetween.merge hne hfits hpicked task.maxTimestamp
    rw [executeMerge_eq] at hmerge
    cases hmerge.symm.trans hmerge'
    refine ⟨tables'', hreached, ?_⟩
    rw [← hsum]
    simp only [List.map_append, List.sum_append, List.map_cons, List.sum_cons, hcount, Nat.add_assoc]

end Rounds

/-! ### What is read -/

/-- The chain's columns are there, and its constants are values of their types. -/
structure Asks (types : List DataType) (chain : Chain) : Prop where
  columns : ∀ leaf ∈ chain.leaves, leaf.column < types.length
  constants : ∀ leaf ∈ chain.leaves, ∀ type, types[leaf.column]? = some type →
    ∃ v : Native type, v.toInt = leaf.constant.toInt
  headNots : chain.headNots = 0

/-- The rows a scan hands out of all that there are. -/
def selected (types : List DataType) (context : ScanContext) (chain : Chain) (rows : List (Nat → List UInt8)) :
    List (Nat → List UInt8) :=
  if IntegerTable.asksFilter context chain then []
  else rows.filter fun record => chain.eval (IntegerTable.number types record)

theorem selected_append (context : ScanContext) (chain : Chain) (rows rows' : List (Nat → List UInt8)) :
    selected types context chain (rows ++ rows') =
      selected types context chain rows ++ selected types context chain rows' := by
  unfold selected
  split
  · rfl
  · exact List.filter_append ..

section Read
variable {total : Nat} {rows : List (Nat → List UInt8)} {tables : List IntegerTable} {segments : List Segment}
  (hfits : ∀ i, FitsAt types total i)
include hfits

/-- Each segment is scanned, and together the scans hand out the selected rows. -/
theorem Holds.scans (h : Holds types total rows tables segments) (build : Build) {chain : Chain}
    (hasks : Asks types chain) {context : ScanContext} (hpos : 1 ≤ context.blockSize)
    (hsize : context.blockSize ≤ kScanBlockSize) :
    ∃ scans, segments.mapM (fun seg => scanSegment build seg context chain.predicate) = .ok scans ∧
      HandsOut (scans.flatMap Prod.snd) (selected types context chain rows) := by
  obtain ⟨hstored, hshape, htotal, rfl⟩ := h
  induction hstored with
  | nil =>
    refine ⟨[], rfl, ?_⟩
    unfold selected
    split <;> exact ⟨rfl, fun c => rfl⟩
  | @cons t seg tables segments ht _ ih =>
    obtain ⟨htypes, hfixed⟩ := hshape t List.mem_cons_self
    rw [List.map_cons, List.sum_cons] at htotal
    obtain ⟨scans, hscans, hrest⟩ := ih (fun t' ht' => hshape t' (List.mem_cons_of_mem _ ht')) (by omega)
    have hlen : t.columns.length = types.length := by rw [← htypes, IntegerTable.types, List.length_map]
    obtain ⟨stats, batches, hscan, hout⟩ := ht.scan hfixed (fun i => htypes.symm ▸ (hfits i).mono (by omega)) build
      (fun leaf hleaf => hlen.symm ▸ hasks.columns leaf hleaf) hasks.headNots
      (fun leaf hleaf c hc => hasks.constants leaf hleaf c.type (by
        rw [← htypes, IntegerTable.types, List.getElem?_map, hc]
        rfl)) context hpos hsize
    refine ⟨(stats, batches) :: scans, ?_, ?_⟩
    · rw [List.mapM_cons, hscan, hscans]
      rfl
    · rw [List.flatMap_cons, List.flatMap_cons, selected_append]
      rw [htypes] at hout
      exact hout.append hrest

/-- Each segment's column is read, and together they are the column of the rows. -/
theorem Holds.columnValues (h : Holds types total rows tables segments) {i : Nat} (hi : i < types.length) :
    ∃ columns, segments.mapM (fun seg => Merger.columnValues seg i) = .ok columns ∧
      columns.flatten = rows.map fun record => record i := by
  obtain ⟨hstored, hshape, htotal, rfl⟩ := h
  induction hstored with
  | nil => exact ⟨[], rfl, rfl⟩
  | @cons t seg tables segments ht _ ih =>
    obtain ⟨htypes, hfixed⟩ := hshape t List.mem_cons_self
    rw [List.map_cons, List.sum_cons] at htotal
    obtain ⟨columns, hcolumns, hrest⟩ := ih (fun t' ht' => hshape t' (List.mem_cons_of_mem _ ht')) (by omega)
    have htype : t.types[i]? = some types[i] := by rw [htypes, List.getElem?_eq_getElem hi]
    obtain ⟨-, hread⟩ := columnValues_stored ht hfixed htype fun j _ => htypes.symm ▸ (hfits j).mono (by omega)
    refine ⟨t.words i :: columns, ?_, ?_⟩
    · rw [List.mapM_cons, hread, hcolumns]
      rfl
    · rw [List.flatten_cons, hrest, List.flatMap_cons, List.map_append, IntegerTable.map_records htype]

end Read

/-! ### Any number of rounds -/

/-- Both lists of segments have the same rows, column by column and scan by scan. -/
structure SameContents (types : List DataType) (a b : List Segment) : Prop where
  numRows : (a.map Segment.numRows).sum = (b.map Segment.numRows).sum
  columns : ∀ i < types.length, ∃ as bs,
    a.mapM (fun seg => columnValues seg i) = .ok as ∧ b.mapM (fun seg => columnValues seg i) = .ok bs ∧
      as.flatten = bs.flatten
  scans : ∀ (build : Build) (chain : Chain) (context : ScanContext), Asks types chain → 1 ≤ context.blockSize →
    context.blockSize ≤ kScanBlockSize → ∃ as bs,
      a.mapM (fun seg => scanSegment build seg context chain.predicate) = .ok as ∧
      b.mapM (fun seg => scanSegment build seg context chain.predicate) = .ok bs ∧
      SameRows (as.flatMap Prod.snd) (bs.flatMap Prod.snd)

/-- **Whatever neighbours are merged in however many rounds, every merge goes through and
the segments keep the rows: their number, every column and what every scan delivers.** -/
theorem rounds_keep_rows (types : List DataType) (hne : types ≠ []) (rows : List Nat) (tables : List IntegerTable)
    (hshape : OfShape types rows tables) (hfits : ∀ i, FitsAt types rows.sum i) :
    ∃ segments, tables.mapM (fun t => writeSegment t.calls) = .ok segments ∧
      ∀ reached, Relation.ReflTransGen MergeRound segments reached →
        SameContents types segments reached ∧
        ∀ before task after, reached = before ++ task.inputSegments ++ after → task.inputSegments ≠ [] →
          ∃ merged, SegmentMerger.executeMerge task = .ok merged ∧ MergeRound reached (before ++ merged :: after) := by
  obtain ⟨segments, hsegments⟩ := exists_written hshape.fixed
  have hstart : Holds types rows.sum (tables.flatMap IntegerTable.records) tables segments :=
    ⟨stored_of_written hsegments, fun t ht => ⟨hshape.types t ht, hshape.fixed t ht⟩, hshape.rows ▸ le_rfl, rfl⟩
  refine ⟨segments, hsegments, fun reached hrounds => ?_⟩
  obtain ⟨tables', hreached, hsum⟩ := hstart.rounds hne hfits hrounds
  refine ⟨⟨hsum.symm, fun i hi => ?_, fun build chain context hasks hpos hsize => ?_⟩, ?_⟩
  · obtain ⟨as, has, hflat⟩ := hstart.columnValues hfits hi
    obtain ⟨bs, hbs, hflat'⟩ := hreached.columnValues hfits hi
    exact ⟨as, bs, has, hbs, hflat.trans hflat'.symm⟩
  · obtain ⟨as, has, hout⟩ := hstart.scans hfits build hasks hpos hsize
    obtain ⟨bs, hbs, hout'⟩ := hreached.scans hfits build hasks hpos hsize
    exact ⟨as, bs, has, hbs, hout.sameRows hout'⟩
  · intro before task after heq hpicked
    subst heq
    obtain ⟨merged, -, hmerge, -, -⟩ := hreached.merge hne hfits hpicked task.maxTimestamp
    rw [← executeMerge_eq] at hmerge
    exact ⟨merged, hmerge, before, after, task, merged, hpicked, rfl, hmerge, rfl⟩

theorem plainDelta_rounds :
    ∃ segments, plainDelta.mapM (fun t => writeSegment t.calls) = .ok segments ∧
      ∀ reached, Relation.ReflTransGen MergeRound segments reached →
        SameContents [.int32, .int64] segments reached ∧
        ∀ before task after, reached = before ++ task.inputSegments ++ after → task.inputSegments ≠ [] →
          ∃ merged, SegmentMerger.executeMerge task = .ok merged ∧ MergeRound reached (before ++ merged :: after) := by
  refine rounds_keep_rows [.int32, .int64] (by decide) [2, 1] plainDelta ⟨?_, rfl, ?_⟩ ?_
  · simp [plainDelta, IntegerTable.types]
  · simp [plainDelta, IntegerTable.FixedWidth, EncodingType.IsFixedWidth]
  · intro i type htype
    rcases i with _ | _ | i
    · cases htype
      exact .inr (by decide)
    · cases htype
      exact .inr (by decide)
    · cases htype

end Merger

end ColumnarStore
