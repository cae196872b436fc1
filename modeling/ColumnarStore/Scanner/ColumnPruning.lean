import ColumnarStore.Scanner.Scan
import ColumnarStore.ZoneMap.Bounds

/-! Pruning a whole column.

`CanPrune` answers for all rows of a column, but asks the zone map about its block 0 only.
The answer is right for every comparison when the rest of the column lies within the
bounds of the first block, and only then. -/
namespace ColumnarStore.Scanner
open Foundation Predicates

/-- `value` points at memory, read as a value of the column's type. -/
def ColumnScanner.canPrune (cs : ColumnScanner) (seg : Segment) (pred : PredicateType) (value : ∀ t, Native t) :
    Outcome Bool := do
  let type ← seg.columnType cs.columnIndex
  return !cs.zoneMap.shouldScanBlock 0 type pred (value type)

/-- A column without null rows. -/
def NullFree {α : Type} (values : List α) (nulls : Option (List Bool)) : Prop :=
  ∀ flags ∈ nulls, values.length ≤ flags.length ∧ ∀ flag ∈ flags, flag = false

/-- Whatever the comparison, a column that can be pruned has no row that satisfies it. -/
def PrunesSoundly {t : DataType} (cs : ColumnScanner) (seg : Segment) (values : List (Native t)) : Prop :=
  ∀ (op : CompareOp) (value : ∀ t, Native t), cs.canPrune seg op.predicateType value = .ok true →
    ∀ x ∈ values, op.holds x.toInt (value t).toInt = false

section Column
variable {t : DataType} {values : List (Native t)} {nulls : Option (List Bool)}

theorem NullFree.covers (h : NullFree values nulls) : Covers nulls values := fun flags hflags => (h flags hflags).1

theorem flagged_nullFree (h : NullFree values nulls) : flagged values nulls = values.map fun x => (x, false) := by
  cases nulls with
  | none => exact flagged_none values
  | some flags =>
    obtain ⟨hlen, hfalse⟩ := h flags rfl
    rw [flagged, Option.getD_some, List.eq_replicate_of_mem hfalse]
    exact zip_replicate hlen

/-- The first block alone decides. -/
theorem canPrune_eq_ok_true_iff (ht : t.isInteger = true) (hnulls : NullFree values nulls) {cs : ColumnScanner}
    {seg : Segment} (htype : seg.columnType cs.columnIndex = .ok t) {blockRows : Nat}
    (hbuilt : ZoneMap.buildFromColumn {blockRows} t values nulls = .ok cs.zoneMap) (op : CompareOp)
    (value : ∀ t, Native t) :
    cs.canPrune seg op.predicateType value = .ok true ↔
      0 < ZoneMap.blocksFor blockRows values.length ∧
        ((ZoneMap.block blockRows 0 values).length % 2 ^ 32 ≠ 0 →
          ¬ Reaches op ((ZoneMap.block blockRows 0 values).map BitVec.toInt) (value t).toInt) := by
  have hscan := ZoneMap.shouldScanBlock_flagged ht hnulls.covers hbuilt 0 op (value t)
  have hblock : ZoneMap.block blockRows 0 (flagged values nulls) =
      (ZoneMap.block blockRows 0 values).map fun x => (x, false) := by
    rw [flagged_nullFree hnulls, ZoneMap.block, ZoneMap.block, List.map_take, List.map_drop]
  rw [hblock, validValues_unflagged] at hscan
  have hprune : cs.canPrune seg op.predicateType value =
      .ok (!cs.zoneMap.shouldScanBlock 0 t op.predicateType (value t)) := by
    rw [ColumnScanner.canPrune, htype, bind_ok, pure_eq_ok]
  rw [hprune, Except.ok.injEq, Bool.not_eq_true', ← Bool.not_eq_true, hscan, not_or, not_or, not_le, not_and]
  exact and_congr_right fun hpos => and_iff_right (ZoneMap.block_ne_nil hpos)

/-- **A column is pruned soundly exactly when its map has no block, or every value lies
between two of the first block, whose 32-bit row count is not 0.** -/
theorem prunesSoundly_iff (ht : t.isInteger = true) (hnulls : NullFree values nulls) {cs : ColumnScanner}
    {seg : Segment} (htype : seg.columnType cs.columnIndex = .ok t) {blockRows : Nat}
    (hbuilt : ZoneMap.buildFromColumn {blockRows} t values nulls = .ok cs.zoneMap) :
    PrunesSoundly cs seg values ↔
      ZoneMap.blocksFor blockRows values.length = 0 ∨
        (ZoneMap.block blockRows 0 values).length % 2 ^ 32 ≠ 0 ∧
          ∀ x ∈ values, ∃ lo ∈ ZoneMap.block blockRows 0 values, ∃ hi ∈ ZoneMap.block blockRows 0 values,
            lo.toInt ≤ x.toInt ∧ x.toInt ≤ hi.toInt := by
  have hcan := canPrune_eq_ok_true_iff ht hnulls htype hbuilt
  constructor
  · intro h
    refine or_iff_not_imp_left.mpr fun hblocks => ?_
    have hpos := Nat.pos_of_ne_zero hblocks
    -- A column that is pruned for equality with one of its values is not pruned soundly.
    have hequal : ∀ x ∈ values, (ZoneMap.block blockRows 0 values).length % 2 ^ 32 ≠ 0 ∧
        Reaches .eq ((ZoneMap.block blockRows 0 values).map BitVec.toInt) x.toInt := by
      intro x hx
      by_contra hout
      let value : ∀ t, Native t := Function.update (fun _ => 0) t x
      have hvalue : value t = x := Function.update_self ..
      have hfalse := h .eq value ((hcan .eq value).mpr ⟨hpos, by rw [hvalue]; exact not_and.mp hout⟩) x hx
      rw [hvalue] at hfalse
      exact of_decide_eq_false hfalse rfl
    constructor
    · obtain ⟨x, hx⟩ := List.exists_mem_of_ne_nil _ (ZoneMap.block_ne_nil hpos)
      exact (hequal x (List.mem_of_mem_drop (List.mem_of_mem_take hx))).1
    · intro x hx
      rcases (hequal x hx).2 with ⟨k, hk, heq⟩ | ⟨-, ⟨k, hk, hle⟩, m, hm, hge⟩
      · obtain ⟨y, hy, rfl⟩ := List.mem_map.mp hk
        have heq := of_decide_eq_true heq
        exact ⟨y, hy, y, hy, heq.le, heq.ge⟩
      · obtain ⟨y, hy, rfl⟩ := List.mem_map.mp hk
        obtain ⟨z, hz, rfl⟩ := List.mem_map.mp hm
        exact ⟨y, hy, z, hz, hle, hge⟩
  · intro h op value hprune x hx
    obtain ⟨hpos, hunreached⟩ := (hcan op value).mp hprune
    obtain ⟨hrows, hall⟩ := h.resolve_left hpos.ne'
    obtain ⟨lo, hlo, hi, hhi, hbounds⟩ := hall x hx
    rw [← Bool.not_eq_true]
    intro hholds
    exact hunreached hrows (reaches_of_within (List.mem_map_of_mem hlo) (List.mem_map_of_mem hhi)
      (within_of_holds hbounds hholds))

end Column

/-- A segment of one column of 32-bit integers, as far as its header goes. -/
def oneColumn : Segment :=
  ⟨{numColumns := 1, columns := [⟨0, 0, by decide, .int32, .plain, {}, 0, 0, 0, 0⟩]}, []⟩

def scannerOver (zm : ZoneMap) : ColumnScanner := ⟨0, zm, .empty⟩

theorem prunesSoundly_within :
    PrunesSoundly (t := .int32)
        (scannerOver ⟨[{minInt := 1, maxInt := 9, rowCount := 2, hasMinMax := true},
          {minInt := 4, maxInt := 4, rowCount := 1, hasMinMax := true}], 2⟩) oneColumn [1, 9, 4] ↔
      ZoneMap.blocksFor 2 3 = 0 ∨
        (ZoneMap.block 2 0 ([1, 9, 4] : List (Native .int32))).length % 2 ^ 32 ≠ 0 ∧
          ∀ x ∈ ([1, 9, 4] : List (Native .int32)), ∃ lo ∈ ZoneMap.block 2 0 ([1, 9, 4] : List (Native .int32)),
            ∃ hi ∈ ZoneMap.block 2 0 ([1, 9, 4] : List (Native .int32)), lo.toInt ≤ x.toInt ∧ x.toInt ≤ hi.toInt :=
  prunesSoundly_iff (t := .int32) rfl (show NullFree _ none from nofun) rfl rfl

/-- The 9 is in the second block, and the column is pruned for equality with 9. -/
theorem prunesSoundly_not_second_block :
    ZoneMap.buildFromColumn {blockRows := 2} .int32 [1, 4, 9] none = .ok
        ⟨[{minInt := 1, maxInt := 4, rowCount := 2, hasMinMax := true},
          {minInt := 9, maxInt := 9, rowCount := 1, hasMinMax := true}], 2⟩ ∧
      ¬ PrunesSoundly (t := .int32)
        (scannerOver ⟨[{minInt := 1, maxInt := 4, rowCount := 2, hasMinMax := true},
          {minInt := 9, maxInt := 9, rowCount := 1, hasMinMax := true}], 2⟩) oneColumn [1, 4, 9] := by
  refine ⟨rfl, fun h => ?_⟩
  have hprune := h .eq (fun t => match t with | .int32 => 9 | _ => 0) rfl 9 (List.mem_of_getElem? (i := 2) rfl)
  cases hprune

end ColumnarStore.Scanner
