import ColumnarStore.Foundation.Extremes
import ColumnarStore.Segment.RoundTrip
import ColumnarStore.ZoneMap.Entries

/-! The statistics of a column.

`AddColumn` counts the flags, and takes the bounds in one pass that skips the flagged
values but starts from the first value, flagged or not. The bounds are therefore those of
the first value and the non-null ones together (`columnStats_spec`), and describe the
non-null ones exactly when the first value lies between two of them
(`recorded_describes_iff`). -/
namespace ColumnarStore
open Foundation Encoding
variable {t : DataType}

/-- The numbers at the positions whose flag is clear. -/
def validNumbers (values : List (Native t)) (nulls : List Bool) : Set Int :=
  {n | ∃ (i : Nat) (x : Native t), values[i]? = some x ∧ nulls[i]? = some false ∧ x.toInt = n}

/-- The statistics say how many values are null, and what the bounds of the others are. -/
structure ColumnStats.Describes (stats : ColumnStats) (values : List (Native t)) (nulls : List Bool) : Prop where
  nullCount : stats.nullCount = nulls.count true
  minInt : IsLeast (validNumbers values nulls) stats.minInt.toInt
  maxInt : IsGreatest (validNumbers values nulls) stats.maxInt.toInt

/-! ### The pass over the values -/

theorem mem_validNumbers {values : List (Native t)} {nulls : List Bool} {n : Int} :
    n ∈ validNumbers values nulls ↔ ∃ x ∈ validValues (values.zip nulls), x.toInt = n := by
  simp only [validNumbers, validValues, Set.mem_ofPred_eq, List.mem_map, List.mem_filter]
  constructor
  · intro h
    obtain ⟨i, x, hx, hvalid, rfl⟩ := h
    refine ⟨x, ⟨(x, false), ⟨List.mem_of_getElem? (i := i) ?_, rfl⟩, rfl⟩, rfl⟩
    exact List.getElem?_zip_eq_some.mpr ⟨hx, hvalid⟩
  · intro h
    obtain ⟨x, ⟨⟨y, isNull⟩, ⟨hrow, hvalid⟩, rfl⟩, rfl⟩ := h
    obtain ⟨i, hi⟩ := List.mem_iff_getElem?.mp hrow
    obtain ⟨hx, hnull⟩ := List.getElem?_zip_eq_some.mp hi
    rw [Bool.not_eq_true'] at hvalid
    exact ⟨i, y, hx, hvalid ▸ hnull, rfl⟩

/-- The pass skips what is null. -/
theorem validBounds_eq {values : List (Native t)} {nulls : List Bool} (h : values.length ≤ nulls.length)
    (lo hi : Native t) :
    validBounds t lo hi values nulls = .ok ((validValues (values.zip nulls)).foldl
      (fun (lo, hi) x => (Native.min t lo x, Native.max t hi x)) (lo, hi)) := by
  induction values generalizing nulls lo hi with
  | nil => rfl
  | cons x rest ih =>
    cases nulls with
    | nil => cases h
    | cons isNull nulls =>
      have hrest : rest.length ≤ nulls.length := Nat.le_of_succ_le_succ h
      cases isNull with
      | true => exact ih hrest lo hi
      | false => exact ih hrest (Native.min t lo x) (Native.max t hi x)

section Recorded
variable (ht : t.isInteger = true) {first : Native t} {rest : List (Native t)} {nulls : List Bool}
  (hflagged : nulls.length = (first :: rest).length)
include ht hflagged

/-- The nulls are counted, and the bounds are those of the non-null values and the first. -/
theorem columnStats_spec : ∃ stats, columnStats t (first :: rest) nulls = .ok stats ∧
    stats.copy.nullCount = nulls.count true ∧
    IsLeast (insert first.toInt (validNumbers (first :: rest) nulls)) stats.copy.minInt.toInt ∧
    IsGreatest (insert first.toInt (validNumbers (first :: rest) nulls)) stats.copy.maxInt.toInt := by
  cases nulls with
  | nil => cases hflagged
  | cons isNull flags =>
    have hrest : rest.length ≤ flags.length := (Nat.succ.inj hflagged).ge
    obtain ⟨hlo, hhi, hall⟩ := Native.bounds_spec ht first (validValues (rest.zip flags))
    -- Whether the first value is null makes no difference once it is added.
    have hnumbers : ∀ n : Int, n ∈ insert first.toInt (validNumbers (first :: rest) (isNull :: flags)) ↔
        ∃ x ∈ first :: validValues (rest.zip flags), x.toInt = n := by
      intro n
      have hvalid : validValues ((first :: rest).zip (isNull :: flags)) =
          if isNull then validValues (rest.zip flags) else first :: validValues (rest.zip flags) := by
        cases isNull <;> rfl
      rw [Set.mem_insert_iff, mem_validNumbers, hvalid, @eq_comm _ n]
      cases isNull <;> simp
    refine ⟨_, by rw [columnStats, List.tail_cons, validBounds_eq hrest]; rfl, ?_⟩
    rw [ColumnStats.copy, if_pos (Bool.and_eq_true_iff.mpr ⟨rfl, ht⟩), Native.toInt_toInt64 ht,
      Native.toInt_toInt64 ht]
    refine ⟨rfl, ⟨(hnumbers _).mpr ⟨_, hlo, rfl⟩, fun n hn => ?_⟩, ⟨(hnumbers _).mpr ⟨_, hhi, rfl⟩, fun n hn => ?_⟩⟩
    · obtain ⟨x, hx, rfl⟩ := (hnumbers n).mp hn
      exact (hall x hx).1
    · obtain ⟨x, hx, rfl⟩ := (hnumbers n).mp hn
      exact (hall x hx).2

/-- **The statistics recorded for a column describe its non-null values exactly when the
first value, null or not, lies between two of them.** -/
theorem recorded_describes_iff {w w' : SegmentWriter} {encoding : EncodingType}
    (hadd : w.addColumn t (first :: rest) nulls encoding = .ok w') :
    (∃ c, w'.columns = w.columns ++ [c] ∧ c.stats.Describes (first :: rest) nulls) ↔
      ∃ lo ∈ validNumbers (first :: rest) nulls, ∃ hi ∈ validNumbers (first :: rest) nulls,
        lo ≤ first.toInt ∧ first.toInt ≤ hi := by
  obtain ⟨stats, hstats, hcount, hmin, hmax⟩ := columnStats_spec ht hflagged
  obtain ⟨buffer, -, hadd⟩ := bind_eq_ok.mp hadd
  rw [hstats] at hadd
  cases hadd
  have hlo := isLeast_iff_of_insert hmin
  have hhi := isGreatest_iff_of_insert hmax
  constructor
  · intro h
    obtain ⟨c, hc, hdescribes⟩ := h
    cases List.append_cancel_left hc
    obtain ⟨lo, hloMem, hloLe⟩ := hlo.mp hdescribes.minInt
    obtain ⟨hi, hhiMem, hhiLe⟩ := hhi.mp hdescribes.maxInt
    exact ⟨lo, hloMem, hi, hhiMem, hloLe, hhiLe⟩
  · intro h
    obtain ⟨lo, hloMem, hi, hhiMem, hloLe, hhiLe⟩ := h
    exact ⟨_, rfl, hcount, hlo.mpr ⟨lo, hloMem, hloLe⟩, hhi.mpr ⟨hi, hhiMem, hhiLe⟩⟩

end Recorded

/-- The first of three values is null, and lies between the others. -/
theorem fiveIsNull_described : ∃ w c, SegmentWriter.addColumn {} .int32 [5, 1, 9] [true, false, false] = .ok w ∧
    w.columns = [] ++ [c] ∧ c.stats.Describes (t := .int32) [5, 1, 9] [true, false, false] := by
  have hone : (1 : Int) ∈ validNumbers (t := .int32) [5, 1, 9] [true, false, false] := ⟨1, 1, rfl, rfl, rfl⟩
  have hnine : (9 : Int) ∈ validNumbers (t := .int32) [5, 1, 9] [true, false, false] := ⟨2, 9, rfl, rfl, rfl⟩
  obtain ⟨c, hc⟩ := (@recorded_describes_iff .int32 rfl 5 [1, 9] [true, false, false] rfl {} _ .plain rfl).mpr
    ⟨1, hone, 9, hnine, by decide, by decide⟩
  exact ⟨_, c, rfl, hc⟩

/-- A null 9 in front of a 1 is recorded as the greatest value. -/
theorem nineIsNull_not_described : ¬ ∃ w c, SegmentWriter.addColumn {} .int32 [9, 1] [true, false] = .ok w ∧
    w.columns = [] ++ [c] ∧ c.stats.Describes (t := .int32) [9, 1] [true, false] := by
  intro h
  obtain ⟨w, c, hadd, hc, hdescribes⟩ := h
  cases hadd
  cases hc
  obtain ⟨i, x, hx, hvalid, hnine⟩ := hdescribes.maxInt.1
  match i with
  | 0 => cases hvalid
  | 1 =>
    cases hx
    cases hnine
  | i + 2 => cases hx

end ColumnarStore
