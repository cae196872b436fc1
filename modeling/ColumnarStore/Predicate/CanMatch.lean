import ColumnarStore.BloomFilter.Runs
import ColumnarStore.Predicate.MixedChain
import ColumnarStore.ZoneMap.Bounds

/-! Whether a predicate can match at all.

`CanMatchZoneMap` asks every block of the column of every leaf, and one block that
excludes a leaf ends it: it says no although other blocks may match
(`canMatchZoneMap_sound_iff`). `CanMatchBloom` asks the filters about every equality,
whatever connectives join the leaves, and takes the constants as though every leaf had
one (`canMatchBloom_sound_iff`). -/
namespace ColumnarStore.Predicates
open Foundation

namespace Predicate

/-- One leaf against one block; a block without rows or bounds excludes nothing. -/
def entryAllows (pred : PredicateType) (constant : Option Int64Bits) (entry : ZoneMapEntry) : Bool :=
  if entry.rowCount = 0 then true
  else if pred = .isNull then true
  else if pred = .isNotNull then entry.nullCount < entry.rowCount
  else if !entry.hasMinMax then true
  else
    match constant with
    | none => true
    | some val => ZoneMapEntry.boundsMatch (· == ·) BitVec.slt entry.minInt entry.maxInt val pred

/-- Leaf `i`, which is passed over when there is no map under its own number, or none
under its column's. -/
def mapsAllow (p : Predicate) (zoneMaps : List (Option ZoneMap)) (pred : PredicateType) (i : Nat) : Bool :=
  match zoneMaps[i]?.join with
  | none => true
  | some _ =>
    match zoneMaps[p.program.columnIndices.getD i 0]?.join with
    | none => true
    | some zm => zm.entries.all (entryAllows pred p.program.constants[i]?)

def canMatchZoneMap (p : Predicate) (zoneMaps : List (Option ZoneMap)) : Bool :=
  p.columnPredicates.zipIdx.all fun (pred, i) => p.mapsAllow zoneMaps pred i

/-- Leaf `i`; only an equality asks. -/
def bloomAllows (p : Predicate) (blooms : List (Option BloomFilter)) (pred : PredicateType) (i : Nat) :
    Outcome Bool :=
  if pred ≠ .equal then .ok true
  else
    match blooms[p.program.columnIndices.getD i 0]?.join with
    | none => .ok true
    | some bf =>
      match p.program.constants[i]? with
      | none => .ok true
      | some val => bf.mightContain (BloomFilter.key (t := .int64) val)

def canMatchBloom (p : Predicate) (blooms : List (Option BloomFilter)) : Outcome Bool :=
  p.columnPredicates.zipIdx.allM fun (pred, i) => p.bloomAllows blooms pred i

end Predicate

/-! ### Conjunctions -/

/-- Comparisons joined by `And`. -/
def Chain.IsConjunction (c : Chain) : Prop := c.headNots = 0 ∧ ∀ l ∈ c.tail, l.1 = .and ∧ l.2.2 = 0

instance (c : Chain) : Decidable c.IsConjunction :=
  inferInstanceAs (Decidable (c.headNots = 0 ∧ ∀ l ∈ c.tail, l.1 = .and ∧ l.2.2 = 0))

theorem foldl_and {α : Type} {f : Bool → α → Bool} {g : α → Bool} {l : List α}
    (h : ∀ x ∈ l, ∀ acc, f acc x = (acc && g x)) (acc : Bool) :
    l.foldl f acc = true ↔ acc = true ∧ ∀ x ∈ l, g x = true := by
  induction l generalizing acc with
  | nil => simp
  | cons x rest ih =>
    rw [List.foldl_cons, ih fun y hy => h y (List.mem_cons_of_mem _ hy), h x List.mem_cons_self, Bool.and_eq_true,
      List.forall_mem_cons, and_assoc]

/-- A conjunction holds where all of its leaves do. -/
theorem Chain.IsConjunction.eval_iff {c : Chain} (h : c.IsConjunction) (row : Nat → Int) :
    c.eval row = true ↔ ∀ leaf ∈ c.leaves, leaf.holds row = true := by
  have hlink : ∀ l ∈ c.tail, ∀ acc, Chain.link row acc l = (acc && l.2.1.holds row) := by
    intro l hl acc
    rw [Chain.link, (h.2 l hl).1, (h.2 l hl).2]
    rfl
  rw [Chain.eval, h.1, foldl_and hlink, Chain.leaves, List.forall_mem_cons, List.forall_mem_map]
  rfl

/-! ### Rows of integers -/

/-- An integer column without nulls. -/
structure IntegerValues where
  type : DataType
  integer : type.isInteger = true
  values : List (Native type)

/-- Columns of one length. -/
structure IntegerRows where
  columns : List IntegerValues
  count : Nat
  full : ∀ col ∈ columns, col.values.length = count

namespace IntegerRows

/-- What each column holds on a row. -/
def row (rows : IntegerRows) (r c : Nat) : Int :=
  match rows.columns[c]? with
  | none => 0
  | some col => (col.values.getD r 0).toInt

/-- Every column has the zone map that building one over it gives. -/
def ZoneMapped (rows : IntegerRows) (blockRows : Nat) (zoneMaps : List ZoneMap) : Prop :=
  List.Forall₂ (fun col zm => ZoneMap.buildFromColumn {blockRows} col.type col.values none = .ok zm)
    rows.columns zoneMaps

/-- No row satisfies a predicate that no zone map lets through. -/
def ZoneMapSound (rows : IntegerRows) (zoneMaps : List ZoneMap) (c : Chain) : Prop :=
  c.predicate.canMatchZoneMap (zoneMaps.map some) = false →
    ∀ r, r < rows.count → c.eval (rows.row r) = false

/-- Every block of the column of every leaf whose number is one of a column admits the
leaf's constant, a number of rows that goes round to 0 aside. -/
def EveryBlockAdmits (rows : IntegerRows) (blockRows : Nat) (c : Chain) : Prop :=
  ∀ i leaf col, c.leaves[i]? = some leaf → i < rows.columns.length →
    rows.columns[leaf.column]? = some col → ∀ b, b < ZoneMap.blocksFor blockRows rows.count →
      (ZoneMap.block blockRows b col.values).length % 2 ^ 32 ≠ 0 →
        Admits leaf.op ((ZoneMap.block blockRows b col.values).map BitVec.toInt) leaf.constant.toInt

section ZoneMaps
variable {rows : IntegerRows} {blockRows : Nat} {zoneMaps : List ZoneMap}

/-- A built entry lets a comparison through when its block admits the constant. -/
theorem entryAllows_block {t : DataType} (ht : t.isInteger = true) {block : List (Native t)}
    {entry : ZoneMapEntry} (hne : block ≠ []) (hentry : ZoneMapEntry.update {} t block none = .ok entry)
    (op : Comparison) (val : Int64Bits) :
    Predicate.entryAllows op.predicateType (some val) entry = true ↔
      (block.length % 2 ^ 32 ≠ 0 → Admits op (block.map BitVec.toInt) val.toInt) := by
  obtain ⟨x, rest, rfl⟩ := List.exists_cons_of_ne_nil hne
  rw [ZoneMapEntry.update_block ht] at hentry
  cases hentry
  have hnull : op.predicateType ≠ .isNull ∧ op.predicateType ≠ .isNotNull := by
    cases op <;> exact ⟨by decide, by decide⟩
  simp only [Predicate.entryAllows, ZoneMapEntry.rowCount_eq_zero_iff, hnull.1, hnull.2, if_false,
    Bool.not_true, Bool.false_eq_true, List.length_cons]
  by_cases hzero : (rest.length + 1) % 2 ^ 32 = 0
  · rw [if_pos hzero]
    exact iff_of_true rfl fun h => absurd hzero h
  · rw [if_neg hzero, ZoneMapEntry.boundsMatch_block ht]
    exact ⟨fun h _ => h, fun h => h hzero⟩

/-- All entries of a built map together. -/
theorem entriesAllow_built {col : IntegerValues} {zm : ZoneMap}
    (hbuild : ZoneMap.buildFromColumn {blockRows} col.type col.values none = .ok zm)
    (op : Comparison) (val : Int64Bits) :
    zm.entries.all (Predicate.entryAllows op.predicateType (some val)) = true ↔
      ∀ b, b < ZoneMap.blocksFor blockRows col.values.length →
        (ZoneMap.block blockRows b col.values).length % 2 ^ 32 ≠ 0 →
          Admits op ((ZoneMap.block blockRows b col.values).map BitVec.toInt) val.toInt := by
  obtain ⟨hlen, hget⟩ := List.forall₂_iff_get.mp (ZoneMap.buildFromColumn_fresh hbuild)
  rw [List.length_range] at hlen
  have hentry : ∀ b (hb : b < ZoneMap.blocksFor blockRows col.values.length),
      Predicate.entryAllows op.predicateType (some val) (zm.entries.get ⟨b, hlen ▸ hb⟩) = true ↔
        ((ZoneMap.block blockRows b col.values).length % 2 ^ 32 ≠ 0 →
          Admits op ((ZoneMap.block blockRows b col.values).map BitVec.toInt) val.toInt) := by
    intro b hb
    have hupdate := hget b (by rw [List.length_range]; exact hb) (hlen ▸ hb)
    rw [List.get_eq_getElem, List.getElem_range] at hupdate
    exact entryAllows_block col.integer (ZoneMap.block_ne_nil hb) hupdate op val
  rw [List.all_eq_true]
  constructor
  · exact fun h b hb => (hentry b hb).mp (h _ (List.get_mem _ _))
  · intro h entry hmem
    obtain ⟨⟨b, hb⟩, rfl⟩ := List.get_of_mem hmem
    exact (hentry b (hlen ▸ hb)).mpr (h b (hlen ▸ hb))

/-- The check of one leaf. -/
theorem leafAllows_iff (hmaps : rows.ZoneMapped blockRows zoneMaps) (c : Chain) {i : Nat} {leaf : Leaf}
    (hleaf : c.leaves[i]? = some leaf) :
    c.predicate.mapsAllow (zoneMaps.map some) leaf.op.predicateType i = true ↔
      (i < rows.columns.length → ∀ col, rows.columns[leaf.column]? = some col →
        ∀ b, b < ZoneMap.blocksFor blockRows rows.count →
          (ZoneMap.block blockRows b col.values).length % 2 ^ 32 ≠ 0 →
            Admits leaf.op ((ZoneMap.block blockRows b col.values).map BitVec.toInt)
              leaf.constant.toInt) := by
  have htables := tables_chain c
  obtain ⟨hlen, hget⟩ := List.forall₂_iff_get.mp hmaps
  have hcolumn : c.predicate.program.columnIndices.getD i 0 = leaf.column := by
    simp [htables.columnIndices, hleaf]
  have hconstant : c.predicate.program.constants[i]? = some leaf.constant := by
    simp [htables.constants, hleaf]
  have hjoin : ∀ k : Nat, (zoneMaps.map some)[k]?.join = zoneMaps[k]? := by
    intro k
    rw [List.getElem?_map]
    cases zoneMaps[k]? <;> rfl
  rw [Predicate.mapsAllow, hcolumn, hconstant, hjoin, hjoin, hlen]
  cases hi : zoneMaps[i]? with
  | none => exact iff_of_true rfl fun h => absurd h (not_lt.mpr (List.getElem?_eq_none_iff.mp hi))
  | some own =>
    rw [imp_iff_right (List.getElem?_eq_some_iff.mp hi).1]
    cases hzm : zoneMaps[leaf.column]? with
    | none =>
      refine iff_of_true rfl fun col hcol => ?_
      have hin := (List.getElem?_eq_some_iff.mp hcol).1
      exact absurd (hlen ▸ hin) (not_lt.mpr (List.getElem?_eq_none_iff.mp hzm))
    | some zm =>
      obtain ⟨hin, hzm⟩ := List.getElem?_eq_some_iff.mp hzm
      have hcol : rows.columns[leaf.column]? = some (rows.columns.get ⟨leaf.column, hlen ▸ hin⟩) :=
        List.getElem?_eq_getElem _
      have hbuild := hget leaf.column (hlen ▸ hin) hin
      rw [List.get_eq_getElem, List.get_eq_getElem, hzm] at hbuild
      rw [hcol]
      simp only [Option.some.injEq, forall_eq']
      have hentries := entriesAllow_built hbuild leaf.op leaf.constant
      rwa [rows.full _ (List.getElem_mem _)] at hentries

/-- The check lets a chain through when every block of each of its columns admits it. -/
theorem canMatchZoneMap_iff (hmaps : rows.ZoneMapped blockRows zoneMaps) (c : Chain) :
    c.predicate.canMatchZoneMap (zoneMaps.map some) = true ↔ rows.EveryBlockAdmits blockRows c := by
  rw [Predicate.canMatchZoneMap, (tables_chain c).columnPredicates, List.all_eq_true]
  constructor
  · intro h i leaf col hleaf hi hcol
    have hmem : (leaf.op.predicateType, i) ∈ (c.leaves.map fun leaf => leaf.op.predicateType).zipIdx := by
      rw [List.mk_mem_zipIdx_iff_getElem?, List.getElem?_map, hleaf]
      rfl
    exact (leafAllows_iff hmaps c hleaf).mp (h _ hmem) hi col hcol
  · rintro h ⟨pred, i⟩ hmem
    rw [List.mk_mem_zipIdx_iff_getElem?, List.getElem?_map, Option.map_eq_some_iff] at hmem
    obtain ⟨leaf, hleaf, rfl⟩ := hmem
    exact (leafAllows_iff hmaps c hleaf).mpr fun hi col hcol => h i leaf col hleaf hi hcol

/-- **No row of a conjunction is lost exactly when no row satisfies it or every block of
the columns of its leaves admits them.** -/
theorem canMatchZoneMap_sound_iff (rows : IntegerRows) (blockRows : Nat) (zoneMaps : List ZoneMap)
    (hmaps : rows.ZoneMapped blockRows zoneMaps) (c : Chain) (hc : c.IsConjunction) :
    rows.ZoneMapSound zoneMaps c ↔
      (∀ r, r < rows.count → ∃ leaf ∈ c.leaves, leaf.holds (rows.row r) = false) ∨
        rows.EveryBlockAdmits blockRows c := by
  have heval : ∀ r, c.eval (rows.row r) = false ↔ ∃ leaf ∈ c.leaves, leaf.holds (rows.row r) = false := by
    intro r
    have h := not_congr (hc.eval_iff (rows.row r))
    push Not at h
    simpa only [Bool.not_eq_true, ne_eq] using h
  simp only [ZoneMapSound, heval, ← canMatchZoneMap_iff hmaps c]
  cases c.predicate.canMatchZoneMap (zoneMaps.map some) with
  | false => simp
  | true => simp

/-- One block is not too few: what excludes it excludes every row. -/
theorem zoneMapSound_of_le (hmaps : rows.ZoneMapped blockRows zoneMaps) {c : Chain} (hc : c.IsConjunction)
    (hcount : rows.count ≤ blockRows) : rows.ZoneMapSound zoneMaps c := by
  intro hexcluded r hr
  by_contra hmatch
  have hall := (hc.eval_iff (rows.row r)).mp (Bool.eq_true_of_not_eq_false hmatch)
  rw [← Bool.not_eq_true, canMatchZoneMap_iff hmaps c] at hexcluded
  refine hexcluded fun i leaf col hleaf _ hcol b hb _ => ?_
  have hzero : b = 0 := by
    have hpos : 0 < blockRows := by omega
    have hlt : ZoneMap.blocksFor blockRows rows.count < 2 := by
      rw [ZoneMap.blocksFor, Nat.div_lt_iff_lt_mul hpos]
      exact (Nat.mod_le _ _).trans_lt (by omega)
    omega
  have hlen : col.values.length = rows.count := rows.full col (List.mem_of_getElem? hcol)
  have hblock : ZoneMap.block blockRows 0 col.values = col.values := by
    rw [ZoneMap.block, Nat.zero_mul, List.drop_zero, List.take_of_length_le (by omega)]
  have hrow : rows.row r leaf.column = (col.values.getD r 0).toInt := by rw [row, hcol]
  have hholds : leaf.holds (rows.row r) = true := hall leaf (List.mem_of_getElem? hleaf)
  rw [Leaf.holds, hrow] at hholds
  rw [hzero, hblock]
  refine admits_of_holds (List.mem_map_of_mem ?_) hholds
  rw [List.getD_eq_getElem _ _ (hlen.symm ▸ hr)]
  exact List.getElem_mem _

/-- The numbers 1 and 2. -/
def oneTwo : IntegerRows where
  columns := [⟨.int32, DataType.isInteger_int32, [1, 2]⟩]
  count := 2
  full := by decide

/-- In one block the map lets `1 < a` through. -/
theorem oneTwo_sound :
    oneTwo.ZoneMapSound [⟨[{minInt := 1, maxInt := 2, rowCount := 2, hasMinMax := true}], 2⟩]
      {head := ⟨.gt, .int32, 0, 1⟩} := by
  refine (canMatchZoneMap_sound_iff oneTwo 2 _ (.cons rfl .nil) _ (by decide)).mpr (.inr ?_)
  intro i leaf col hleaf _ hcol b hb _
  match i with
  | 0 =>
    cases hleaf
    cases hcol
    match b with
    | 0 => decide
  | i + 1 => cases hleaf

/-- In blocks of one row the first, whose bounds are 1 and 1, ends the check, and the
row of the second satisfies the leaf. -/
theorem oneTwo_unsound :
    ∃ zm, ZoneMap.buildFromColumn {blockRows := 1} .int32 [1, 2] none = .ok zm ∧
      ¬ oneTwo.ZoneMapSound [zm] {head := ⟨.gt, .int32, 0, 1⟩} :=
  ⟨_, rfl, fun h => absurd (h (by decide) 1 (by decide)) (by decide)⟩

end ZoneMaps

end IntegerRows

/-! ### Chains with null tests -/

namespace MixedLeaf

/-- The leaf on a row; a null test asks for 0. -/
def holds (leaf : MixedLeaf) (row : Nat → Int) : Bool :=
  match leaf with
  | comparison leaf => leaf.holds row
  | null column => row column = 0
  | notNull column => row column ≠ 0

end MixedLeaf

namespace MixedChain

/-- The left-to-right fold. -/
def eval (c : MixedChain) (row : Nat → Int) : Bool :=
  c.tail.foldl (fun acc l => l.1.apply acc (l.2.holds row)) (c.head.holds row)

/-- The constants of the comparisons, in order. -/
def constants (c : MixedChain) : List Int64Bits := c.leaves.filterMap MixedLeaf.constant?

end MixedChain

/-! ### Filters over rows -/

/-- A filter's size, and the values added to it. -/
structure Filling where
  numBits : Nat
  numHashes : Nat
  added : List Int64Bits
  pos : 1 ≤ numBits
  small : numBits < 2 ^ 64

namespace Filling

def filter (f : Filling) : Outcome BloomFilter := (BloomFilter.ofSize f.numBits f.numHashes).addAll f.added

/-- Every probe of the value is one of a value added. -/
def Covers (f : Filling) (val : Int64Bits) : Prop :=
  ∀ p ∈ BloomFilter.probes f.numBits f.numHashes val,
    ∃ x ∈ f.added, p ∈ BloomFilter.probes f.numBits f.numHashes x

instance (f : Filling) (val : Int64Bits) : Decidable (f.Covers val) :=
  inferInstanceAs (Decidable (∀ p ∈ BloomFilter.probes f.numBits f.numHashes val,
    ∃ x ∈ f.added, p ∈ BloomFilter.probes f.numBits f.numHashes x))

/-- A filter that took a value tells the values it covers from the others. -/
theorem mightContain {f : Filling} {bf : BloomFilter} (h : f.filter = .ok bf) (hadded : f.added ≠ [])
    (val : Int64Bits) : bf.mightContain val = .ok (decide (f.Covers val)) := by
  obtain ⟨hbits, hhashes, hholds⟩ := BloomFilter.holds_addAll h
  have hfits : f.numBits + 63 < 2 ^ 64 ∨ f.numHashes = 0 := by
    by_contra hwide
    obtain ⟨hwide, hhash⟩ := not_or.mp hwide
    obtain ⟨x, rest, hx⟩ := List.exists_cons_of_ne_nil hadded
    rw [filter, hx, BloomFilter.addAll, List.foldlM_cons] at h
    obtain ⟨bf₁, hadd, -⟩ := bind_eq_ok.mp h
    exact BloomFilter.add_wordless f.small (not_lt.mp hwide) hhash x bf₁ hadd
  obtain ⟨found, hfound, hiff⟩ := hholds.mightContain (hbits ▸ f.pos) (hbits.symm ▸ hhashes.symm ▸ hfits) val
  rw [hbits, hhashes] at hiff
  rw [hfound, Except.ok.injEq, Bool.eq_iff_iff, hiff, decide_eq_true_eq]
  rfl

end Filling

/-- 64-bit columns of one length. -/
structure Int64Rows where
  columns : List (List Int64Bits)
  count : Nat
  full : ∀ values ∈ columns, values.length = count

namespace Int64Rows

/-- What each column holds on a row. -/
def row (rows : Int64Rows) (r c : Nat) : Int := ((rows.columns.getD c []).getD r 0).toInt

/-- Every value of a column was added to the column's filter. -/
def Filled (rows : Int64Rows) (fillings : List Filling) : Prop :=
  List.Forall₂ (fun values f => ∀ x ∈ values, x ∈ f.added) rows.columns fillings

/-- No row satisfies a chain that no filter lets through. -/
def BloomSound (rows : Int64Rows) (blooms : List BloomFilter) (c : MixedChain) : Prop :=
  c.predicate.canMatchBloom (blooms.map some) = .ok false →
    ∀ r, r < rows.count → c.eval (rows.row r) = false

/-- The column's filter covers, for every equality, the constant that has the number of
the equality among the leaves. -/
def EqualitiesCovered (fillings : List Filling) (c : MixedChain) : Prop :=
  ∀ (i : Nat) (leaf : Leaf) (f : Filling) (val : Int64Bits), c.leaves[i]? = some (.comparison leaf) → leaf.op = .eq →
    fillings[leaf.column]? = some f → c.constants[i]? = some val → f.Covers val

section Filters
variable {rows : Int64Rows} {fillings : List Filling} {blooms : List BloomFilter}

/-- Where there are rows every filter took a value. -/
theorem Filled.added_ne_nil (h : rows.Filled fillings) (hcount : 0 < rows.count) {c : Nat} {f : Filling}
    (hf : fillings[c]? = some f) : f.added ≠ [] := by
  obtain ⟨hlen, hget⟩ := List.forall₂_iff_get.mp h
  obtain ⟨hc, rfl⟩ := List.getElem?_eq_some_iff.mp hf
  have hvalues := rows.full _ (List.get_mem rows.columns ⟨c, hlen ▸ hc⟩)
  obtain ⟨x, hx⟩ := List.exists_mem_of_length_pos (hvalues ▸ hcount)
  exact List.ne_nil_of_mem (hget c (hlen ▸ hc) hc x hx)

/-- The check of one leaf. -/
theorem bloomAllows_eq (hfilled : rows.Filled fillings) (hcount : 0 < rows.count)
    (hblooms : fillings.mapM Filling.filter = .ok blooms) (c : MixedChain) {i : Nat} {leaf : MixedLeaf}
    (hleaf : c.leaves[i]? = some leaf) :
    ∃ b, c.predicate.bloomAllows (blooms.map some) leaf.predicateType i = .ok b ∧
      (b = true ↔ ∀ (own : Leaf) (f : Filling) (val : Int64Bits), leaf = .comparison own → own.op = .eq →
        fillings[own.column]? = some f → c.constants[i]? = some val → f.Covers val) := by
  have htables := mixedTables_chain c
  obtain ⟨hlen, hget⟩ := List.forall₂_iff_get.mp (mapM_eq_ok.mp hblooms)
  have hcolumn : c.predicate.program.columnIndices.getD i 0 = leaf.column := by
    simp [htables.columnIndices, hleaf]
  have hjoin : (blooms.map some)[leaf.column]?.join = blooms[leaf.column]? := by
    rw [List.getElem?_map]
    cases blooms[leaf.column]? <;> rfl
  have hconstants : c.predicate.program.constants = c.constants := htables.constants
  rw [Predicate.bloomAllows, hcolumn, hjoin, hconstants]
  by_cases hequal : leaf.predicateType = .equal
  · rw [if_neg (not_not.mpr hequal)]
    cases hbf : blooms[leaf.column]? with
    | none =>
      refine ⟨true, rfl, iff_of_true rfl ?_⟩
      rintro own f val rfl - hf -
      have hin := (List.getElem?_eq_some_iff.mp hf).1
      exact absurd (hlen ▸ hin) (not_lt.mpr (List.getElem?_eq_none_iff.mp hbf))
    | some bf =>
      obtain ⟨hin, rfl⟩ := List.getElem?_eq_some_iff.mp hbf
      have hf : fillings[leaf.column]? = some (fillings.get ⟨leaf.column, hlen ▸ hin⟩) :=
        List.getElem?_eq_getElem _
      cases hval : c.constants[i]? with
      | none =>
        refine ⟨true, rfl, iff_of_true rfl ?_⟩
        rintro own f val - - - hnone
        cases hnone
      | some val =>
        have hcovers := (fillings.get ⟨leaf.column, hlen ▸ hin⟩).mightContain (hget _ (hlen ▸ hin) hin)
          (hfilled.added_ne_nil hcount hf) val
        refine ⟨_, (congrArg (BloomFilter.mightContain _) (BitVec.setWidth_eq val)).trans hcovers, ?_⟩
        rw [decide_eq_true_eq]
        constructor
        · rintro h own f val' rfl - hf' hval'
          cases hf.symm.trans hf'
          cases hval'
          exact h
        · intro h
          cases leaf with
          | comparison own =>
            have heq : own.op = .eq := by
              cases hop : own.op <;> simp [MixedLeaf.predicateType, Comparison.predicateType, hop] at hequal ⊢
            exact h own _ val rfl heq hf rfl
          | null column => cases hequal
          | notNull column => cases hequal
  · rw [if_pos hequal]
    refine ⟨true, rfl, iff_of_true rfl ?_⟩
    rintro own f val rfl heq
    exact absurd (congrArg Comparison.predicateType heq) hequal

/-- The check lets a chain through when the equalities are covered. -/
theorem canMatchBloom_eq (hfilled : rows.Filled fillings) (hcount : 0 < rows.count)
    (hblooms : fillings.mapM Filling.filter = .ok blooms) (c : MixedChain) :
    ∃ b, c.predicate.canMatchBloom (blooms.map some) = .ok b ∧
      (b = true ↔ EqualitiesCovered fillings c) := by
  have hleaves : ∀ pred i, (pred, i) ∈ c.predicate.columnPredicates.zipIdx →
      ∃ leaf, c.leaves[i]? = some leaf ∧ leaf.predicateType = pred := by
    intro pred i hmem
    rwa [(mixedTables_chain c).columnPredicates, List.mk_mem_zipIdx_iff_getElem?, List.getElem?_map,
      Option.map_eq_some_iff] at hmem
  obtain ⟨b, hall, hiff⟩ := exists_allM_ok (l := c.predicate.columnPredicates.zipIdx)
    (f := fun x => c.predicate.bloomAllows (blooms.map some) x.1 x.2) fun x hx => by
      obtain ⟨leaf, hleaf, hpred⟩ := hleaves x.1 x.2 hx
      obtain ⟨b, hb, -⟩ := bloomAllows_eq hfilled hcount hblooms c hleaf
      exact ⟨b, hpred ▸ hb⟩
  refine ⟨b, hall, hiff.trans ?_⟩
  constructor
  · intro h i leaf f val hleaf
    have hmem : (leaf.op.predicateType, i) ∈ c.predicate.columnPredicates.zipIdx := by
      rw [(mixedTables_chain c).columnPredicates, List.mk_mem_zipIdx_iff_getElem?, List.getElem?_map, hleaf]
      rfl
    obtain ⟨b, hb, hcovers⟩ := bloomAllows_eq hfilled hcount hblooms c hleaf
    cases hb.symm.trans (h _ hmem)
    exact hcovers.mp rfl leaf f val rfl
  · rintro h ⟨pred, i⟩ hmem
    obtain ⟨leaf, hleaf, rfl⟩ := hleaves pred i hmem
    obtain ⟨b, hb, hcovers⟩ := bloomAllows_eq hfilled hcount hblooms c hleaf
    rw [hb, hcovers.mpr]
    rintro own f val rfl
    exact h i own f val hleaf

/-- **No row of a chain is lost exactly when no row satisfies it or, for each of its
equalities, the column's filter covers the constant that has the equality's number.** -/
theorem canMatchBloom_sound_iff (rows : Int64Rows) (fillings : List Filling) (blooms : List BloomFilter)
    (hfilled : rows.Filled fillings) (hblooms : fillings.mapM Filling.filter = .ok blooms) (c : MixedChain) :
    rows.BloomSound blooms c ↔
      (∀ r, r < rows.count → c.eval (rows.row r) = false) ∨ EqualitiesCovered fillings c := by
  rcases Nat.eq_zero_or_pos rows.count with hnone | hcount
  · refine iff_of_true (fun _ r hr => ?_) (.inl fun r hr => ?_)
    · omega
    · omega
  · obtain ⟨b, hb, hiff⟩ := canMatchBloom_eq hfilled hcount hblooms c
    rw [BloomSound, hb, Except.ok.injEq, ← hiff]
    cases b with
    | false => simp
    | true => simp

theorem getElem?_filterMap {α β : Type} {f : α → Option β} {l : List α} (h : ∀ x ∈ l, (f x).isSome)
    (i : Nat) : (l.filterMap f)[i]? = l[i]?.bind f := by
  induction l generalizing i with
  | nil => rfl
  | cons x rest ih =>
    obtain ⟨y, hy⟩ := Option.isSome_iff_exists.mp (h x List.mem_cons_self)
    rw [List.filterMap_cons_some hy]
    cases i with
    | zero => exact hy.symm
    | succ i => exact ih (fun z hz => h z (List.mem_cons_of_mem _ hz)) i

/-- Comparisons joined by `And` lose no row. -/
theorem bloomSound_conjunction (hfilled : rows.Filled fillings)
    (hblooms : fillings.mapM Filling.filter = .ok blooms) {c : MixedChain} (hand : ∀ l ∈ c.tail, l.1 = .and)
    (hcomparisons : ∀ leaf ∈ c.leaves, leaf.IsComparison) : rows.BloomSound blooms c := by
  intro hexcluded r hr
  by_contra hmatch
  have huncovered : ¬ EqualitiesCovered fillings c := by
    obtain ⟨b, hb, hiff⟩ := canMatchBloom_eq hfilled (Nat.zero_lt_of_lt hr) hblooms c
    cases hb.symm.trans hexcluded
    exact fun hcovered => Bool.false_ne_true (hiff.mpr hcovered)
  have hlink : ∀ l ∈ c.tail, ∀ acc, l.1.apply acc (l.2.holds (rows.row r)) = (acc && l.2.holds (rows.row r)) := by
    intro l hl acc
    rw [hand l hl]
    rfl
  have hall : ∀ leaf ∈ c.leaves, leaf.holds (rows.row r) = true := by
    rw [MixedChain.leaves, List.forall_mem_cons, List.forall_mem_map]
    exact (foldl_and hlink _).mp (Bool.eq_true_of_not_eq_false hmatch)
  have hsome : ∀ leaf ∈ c.leaves, leaf.constant?.isSome := by
    intro leaf hleaf
    have hcomparison := hcomparisons leaf hleaf
    cases leaf with
    | comparison own => rfl
    | null column => cases hcomparison
    | notNull column => cases hcomparison
  refine huncovered fun i leaf f val hleaf heq hf hval => ?_
  rw [MixedChain.constants, getElem?_filterMap hsome, hleaf] at hval
  cases hval
  -- The row's value is the constant, and was added.
  obtain ⟨hlen, hget⟩ := List.forall₂_iff_get.mp hfilled
  obtain ⟨hin, rfl⟩ := List.getElem?_eq_some_iff.mp hf
  have hvalues := rows.full _ (List.get_mem rows.columns ⟨leaf.column, hlen ▸ hin⟩)
  have hholds : leaf.holds (rows.row r) = true := hall _ (List.mem_of_getElem? hleaf)
  have hcolumn : leaf.column < rows.columns.length := hlen ▸ hin
  have hrow : rows.row r leaf.column = ((rows.columns.get ⟨leaf.column, hcolumn⟩).getD r 0).toInt := by
    rw [row, List.getD_eq_getElem _ _ hcolumn]
    rfl
  rw [Leaf.holds, heq, Comparison.holds, decide_eq_true_eq, hrow, BitVec.toInt_inj,
    List.getD_eq_getElem _ _ (hvalues.symm ▸ hr)] at hholds
  have hadded := hget leaf.column (hlen ▸ hin) hin leaf.constant (hholds ▸ List.getElem_mem _)
  exact fun p hp => ⟨leaf.constant, hadded, hp⟩

/-- The number 5, in a filter of 64 bits. -/
def five : Int64Rows where
  columns := [[5]]
  count := 1
  full := by decide

def fiveFilling : Filling := ⟨64, 1, [5], by decide, by decide⟩

def fiveBlooms : List BloomFilter := ([fiveFilling].mapM Filling.filter).toOption.getD []

/-- The filter has the 5 that the row has. -/
theorem five_sound :
    five.BloomSound fiveBlooms ⟨.comparison ⟨.eq, .int64, 0, 5⟩, [(.and, .notNull 0)]⟩ := by
  refine (canMatchBloom_sound_iff five [fiveFilling] fiveBlooms (.cons (fun _ hx => hx) .nil) (by decide +kernel)
    _).mpr (.inr ?_)
  intro i leaf f val hleaf _ hf hval
  match i with
  | 0 =>
    cases hleaf
    cases hf
    cases hval
    exact fun p hp => ⟨5, List.mem_singleton_self _, hp⟩
  | 1 => cases hleaf
  | i + 2 => cases hleaf

/-- Under `Or` the filter, which does not have 6, ends the check, and the row with 5 is lost. -/
theorem five_or_unsound :
    [fiveFilling].mapM Filling.filter = .ok fiveBlooms ∧ five.Filled [fiveFilling] ∧
      ¬ five.BloomSound fiveBlooms
        ⟨.comparison ⟨.eq, .int64, 0, 6⟩, [(.or, .comparison ⟨.eq, .int64, 0, 5⟩)]⟩ :=
  ⟨by decide +kernel, .cons (fun _ hx => hx) .nil, fun h => absurd (h (by decide +kernel) 0 (by decide)) (by decide)⟩

end Filters

end Int64Rows

end ColumnarStore.Predicates
