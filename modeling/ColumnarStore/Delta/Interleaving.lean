import ColumnarStore.Delta.History

/-! Two inserts of one row at a time.

`Insert` locks one column after the other, never the row. Two of them that run at the
same time write every column in the order in which their steps for that column come
(`race_last_writer`), and these orders can differ from column to column. -/
namespace ColumnarStore.Delta

/-- Which of the two inserts a step belongs to. -/
inductive Side where
  | first | second
  deriving DecidableEq, Repr

/-- An `Insert` of the row with its timestamp drawn. -/
structure PendingInsert where
  columnData : List Bytes
  timestamp : Timestamp

/-- The columns and how many of them each insert has written. -/
structure Race where
  columns : List ColumnDelta
  done : Side → Nat := fun _ => 0

namespace Race
variable (inserts : Side → PendingInsert) (rowId : RowId)

/-- The next turn of the loop in `Insert`: the write of one column under its lock. -/
def step (s : Race) (side : Side) : Race :=
  match (inserts side).columnData[s.done side]? with
  | none => s
  | some data =>
    if s.done side < s.columns.length then
      { columns := s.columns.modify (s.done side) fun d => d.insert rowId (inserts side).timestamp data
        done := Function.update s.done side (s.done side + 1) }
    else s

def run (s : Race) (schedule : List Side) : Race := schedule.foldl (step inserts rowId) s

theorem run_concat (s : Race) (before : List Side) (side : Side) :
    s.run inserts rowId (before ++ [side]) = (s.run inserts rowId before).step inserts rowId side := by
  simp [run]

/-- The insert whose step for column `col` comes last, the most recent step given first. -/
def lastWriter (col : Nat) : List Side → Option Side
  | [] => none
  | side :: before => if before.count side = col then some side else lastWriter col before

/-- What an insert writes to a column. -/
def entry (col : Nat) (side : Side) : Timestamp × Bytes :=
  ((inserts side).timestamp, (inserts side).columnData.getD col [])

/-- The whole row is from one insert. -/
def Atomic (s : Race) : Prop :=
  ∃ side, ∀ col < s.columns.length, ∃ d, s.columns[col]? = some d ∧
    d.inserts[rowId]? = some (entry inserts col side)

/-! ### Steps -/

/-- After some steps: how far the two inserts are, and who wrote every column last. -/
structure Steps (columns : List ColumnDelta) (schedule : List Side) (s : Race) : Prop where
  length : s.columns.length = columns.length
  done : ∀ side, s.done side = min columns.length (schedule.count side)
  written : ∀ (col : Nat) (d : ColumnDelta), s.columns[col]? = some d → ∃ old, columns[col]? = some old ∧
    d.inserts[rowId]? = ((lastWriter col schedule.reverse).map (entry inserts col)).or old.inserts[rowId]?

variable {inserts rowId}

/-- A turn of an insert that is not done writes its next column. -/
theorem step_of_lt {s : Race} {side : Side} (hin : s.done side < (inserts side).columnData.length)
    (hlt : s.done side < s.columns.length) :
    s.step inserts rowId side =
      { columns := s.columns.modify (s.done side) fun d =>
          d.insert rowId (inserts side).timestamp ((inserts side).columnData.getD (s.done side) [])
        done := Function.update s.done side (s.done side + 1) } := by
  rw [step, List.getElem?_eq_getElem hin, List.getD_eq_getElem _ _ hin]
  exact if_pos hlt

theorem step_of_le {s : Race} {side : Side} (h : s.columns.length ≤ s.done side) :
    s.step inserts rowId side = s := by
  rw [step]
  split
  · rfl
  · exact if_neg (by omega)

theorem count_concat (before : List Side) (side side' : Side) :
    (before ++ [side]).count side' = before.count side' + if side = side' then 1 else 0 := by
  rw [List.count_append]
  congr 1
  cases side <;> cases side' <;> rfl

theorem lastWriter_concat (col : Nat) (before : List Side) (side : Side) :
    lastWriter col (before ++ [side]).reverse =
      if before.count side = col then some side else lastWriter col before.reverse := by
  rw [List.reverse_append, List.reverse_singleton, List.singleton_append, lastWriter, List.count_reverse]

section Step
variable {columns : List ColumnDelta} {before : List Side} {s : Race} (h : Steps inserts rowId columns before s)
  {side : Side}
include h

theorem Steps.write (hdata : columns.length ≤ (inserts side).columnData.length)
    (hmore : before.count side < columns.length) :
    Steps inserts rowId columns (before ++ [side]) (s.step inserts rowId side) := by
  obtain ⟨hlength, hdone, hwritten⟩ := h
  have hat : s.done side = before.count side := by
    rw [hdone]
    omega
  rw [step_of_lt (by omega) (by omega), hat]
  refine ⟨by simpa using hlength, fun side' => ?_, fun col d hd => ?_⟩
  · rw [count_concat]
    by_cases hside : side = side'
    · subst hside
      simp only [Function.update_self, if_true]
      omega
    · rw [if_neg hside]
      exact (Function.update_of_ne (Ne.symm hside) _ _).trans (hdone side')
  · simp only [List.getElem?_modify, Option.map_eq_map, Option.map_eq_some_iff] at hd
    obtain ⟨prev, hprev, hd⟩ := hd
    obtain ⟨old, hold, hentry⟩ := hwritten col prev hprev
    refine ⟨old, hold, ?_⟩
    rw [lastWriter_concat]
    by_cases hcol : before.count side = col
    · rw [if_pos hcol] at hd ⊢
      rw [← hd, ColumnDelta.inserts_insert, if_pos rfl, hcol]
      rfl
    · rw [if_neg hcol] at hd ⊢
      rw [← hd]
      exact hentry

/-- An insert that is done changes nothing. -/
theorem Steps.rest (hdone : columns.length ≤ before.count side) :
    Steps inserts rowId columns (before ++ [side]) (s.step inserts rowId side) := by
  obtain ⟨hlength, hcount, hwritten⟩ := h
  have hstep : s.step inserts rowId side = s := by
    refine step_of_le ?_
    rw [hcount, hlength]
    omega
  rw [hstep]
  refine ⟨hlength, fun side' => ?_, fun col d hd => ?_⟩
  · rw [hcount, count_concat]
    by_cases hside : side = side'
    · subst hside
      rw [if_pos rfl]
      omega
    · rw [if_neg hside, Nat.add_zero]
  · obtain ⟨old, hold, hentry⟩ := hwritten col d hd
    have hcol := (List.getElem?_eq_some_iff.mp hold).1
    refine ⟨old, hold, ?_⟩
    rw [lastWriter_concat, if_neg (by omega)]
    exact hentry

end Step

theorem steps_run (columns : List ColumnDelta)
    (hdata : ∀ side, columns.length ≤ (inserts side).columnData.length) (schedule : List Side) :
    Steps inserts rowId columns schedule (run inserts rowId ⟨columns, fun _ => 0⟩ schedule) := by
  induction schedule using List.reverseRecOn with
  | nil => exact ⟨rfl, fun side => by simp [run], fun col d hd => ⟨d, hd, rfl⟩⟩
  | append_singleton before side ih =>
    rw [run_concat]
    rcases lt_or_ge (before.count side) columns.length with hmore | hdone
    · exact ih.write (hdata side) hmore
    · exact ih.rest hdone

/-- A side that has taken more than `col` steps has written the column. -/
theorem lastWriter_isSome {col : Nat} {side : Side} {steps : List Side} (h : col < steps.count side) :
    (lastWriter col steps).isSome := by
  induction steps with
  | nil => simp at h
  | cons side' before ih =>
    rw [lastWriter]
    split
    · rfl
    · next hne =>
      refine ih ?_
      rw [List.count_cons] at h
      split at h
      · next heq =>
        have hside : side' = side := by simpa using heq
        subst hside
        omega
      · omega

/-- **Once two inserts of a row are done, every column holds the data and the timestamp
of the one that wrote it last; the row is from one insert if the same one wrote every
column last, and only then if their timestamps differ.** -/
theorem race_last_writer (inserts : Side → PendingInsert) (rowId : RowId) (columns : List ColumnDelta)
    (hdata : ∀ side, columns.length ≤ (inserts side).columnData.length) (schedule : List Side)
    (hdone : ∀ side, schedule.count side = columns.length) :
    let s := run inserts rowId ⟨columns, fun _ => 0⟩ schedule
    (∀ col < columns.length, ∃ side d, lastWriter col schedule.reverse = some side ∧
      s.columns[col]? = some d ∧ d.inserts[rowId]? = some (entry inserts col side)) ∧
    ((∃ side, ∀ col < columns.length, lastWriter col schedule.reverse = some side) →
      s.Atomic inserts rowId) ∧
    ((inserts .first).timestamp ≠ (inserts .second).timestamp → s.Atomic inserts rowId →
      ∃ side, ∀ col < columns.length, lastWriter col schedule.reverse = some side) := by
  intro s
  have hsteps : Steps inserts rowId columns schedule s := steps_run columns hdata schedule
  obtain ⟨hlength, -, hwritten⟩ := hsteps
  have hall : ∀ col < columns.length, ∃ side d, lastWriter col schedule.reverse = some side ∧
      s.columns[col]? = some d ∧ d.inserts[rowId]? = some (entry inserts col side) := by
    intro col hcol
    have hcount : col < schedule.reverse.count .first := by
      rw [List.count_reverse, hdone]
      exact hcol
    obtain ⟨side, hside⟩ := Option.isSome_iff_exists.mp (lastWriter_isSome hcount)
    have hd : s.columns[col]? = some s.columns[col] := List.getElem?_eq_getElem (by rw [hlength]; exact hcol)
    obtain ⟨_, -, hentry⟩ := hwritten col _ hd
    rw [hside] at hentry
    exact ⟨side, _, hside, hd, hentry⟩
  refine ⟨hall, ?_, ?_⟩
  · intro h
    obtain ⟨side, hsame⟩ := h
    refine ⟨side, fun col hcol => ?_⟩
    rw [hlength] at hcol
    obtain ⟨side', d, hside, hd, hentry⟩ := hall col hcol
    cases hside.symm.trans (hsame col hcol)
    exact ⟨d, hd, hentry⟩
  · intro hne h
    obtain ⟨side, hatomic⟩ := h
    refine ⟨side, fun col hcol => ?_⟩
    obtain ⟨side', d, hside, hd, hentry⟩ := hall col hcol
    obtain ⟨d', hd', hentry'⟩ := hatomic col (by rw [hlength]; exact hcol)
    cases hd.symm.trans hd'
    have hstamp : (inserts side').timestamp = (inserts side).timestamp :=
      congrArg Prod.fst (Option.some.inj (hentry.symm.trans hentry'))
    have hboth : side' = side := by
      cases side <;> cases side' <;> first
        | rfl
        | exact absurd hstamp hne
        | exact absurd hstamp.symm hne
    rw [hside, hboth]

/-! ### One insert alone -/

/-- The steps of one insert, taken in a row, are `Insert`. -/
theorem run_alone (s : DeltaStore) (side : Side) (timestamp : Timestamp)
    (hdata : s.numColumns ≤ (inserts side).columnData.length)
    (hstamp : (inserts side).timestamp = s.stamp timestamp) :
    (run inserts rowId ⟨s.columns, fun _ => 0⟩ (List.replicate s.numColumns side)).columns =
      (s.insert rowId (inserts side).columnData timestamp).columns := by
  have hrun : ∀ k ≤ s.numColumns,
      (run inserts rowId ⟨s.columns, fun _ => 0⟩ (List.replicate k side)).done side = k ∧
      (run inserts rowId ⟨s.columns, fun _ => 0⟩ (List.replicate k side)).columns =
        s.columns.mapIdx fun col d =>
          if col < k then d.insert rowId (s.stamp timestamp) ((inserts side).columnData.getD col []) else d := by
    intro k
    induction k with
    | zero => exact fun _ => ⟨rfl, List.ext_getElem? fun col => by simp [run]⟩
    | succ k ih =>
      intro hk
      obtain ⟨hdone, hcolumns⟩ := ih (by omega)
      rw [List.replicate_succ', run_concat]
      generalize run inserts rowId ⟨s.columns, fun _ => 0⟩ (List.replicate k side) = r at hdone hcolumns
      have hin : k < (inserts side).columnData.length := by omega
      have hlt : k < r.columns.length := by
        rw [hcolumns, List.length_mapIdx]
        exact hk
      rw [step_of_lt (by rw [hdone]; exact hin) (by rw [hdone]; exact hlt), hdone, hstamp]
      refine ⟨Function.update_self .., List.ext_getElem? fun col => ?_⟩
      simp only [List.getElem?_modify, hcolumns, List.getElem?_mapIdx, Option.map_eq_map, Option.map_map]
      congr 1
      funext d
      by_cases hcol : k = col
      · subst hcol
        simp
      · by_cases hbefore : col < k
        · simp [hcol, hbefore, show col < k + 1 by omega]
        · simp [hcol, hbefore, show ¬ col < k + 1 by omega]
  rw [(hrun s.numColumns le_rfl).2]
  refine List.ext_getElem? fun col => ?_
  simp only [DeltaStore.insert, List.getElem?_mapIdx]
  cases hd : s.columns[col]? with
  | none => rfl
  | some d =>
    have hcol : col < s.numColumns := (List.getElem?_eq_some_iff.mp hd).1
    have hin : col < (inserts side).columnData.length := hcol.trans_le hdata
    simp only [Option.map_some, if_pos hcol, List.getElem?_eq_getElem hin, List.getD_eq_getElem _ _ hin]

/-! ### Two inserts that cross -/

def crossing : Side → PendingInsert
  | .first => ⟨[[1], [1]], 1⟩
  | .second => ⟨[[2], [2]], 2⟩

/-- The second insert overtakes between the two writes of the first. -/
def crossed : Race := run crossing 7 ⟨[{}, {}], fun _ => 0⟩ [.first, .second, .second, .first]

theorem crossed_not_atomic : ¬ crossed.Atomic crossing 7 := by
  have hfirst : crossed.columns[0]?.map (fun d => d.inserts[(7 : RowId)]?) = some (some (2, [2])) := by
    decide +kernel
  have hsecond : crossed.columns[1]?.map (fun d => d.inserts[(7 : RowId)]?) = some (some (1, [1])) := by
    decide +kernel
  have hlength : crossed.columns.length = 2 := by decide +kernel
  intro h
  obtain ⟨side, hall⟩ := h
  obtain ⟨d, hd, hentry⟩ := hall 0 (by omega)
  obtain ⟨d', hd', hentry'⟩ := hall 1 (by omega)
  rw [hd, Option.map_some, hentry] at hfirst
  rw [hd', Option.map_some, hentry'] at hsecond
  cases side with
  | first => exact absurd hfirst (by decide)
  | second => exact absurd hsecond (by decide)

/-- With the second insert in between, the first writes the second column last. -/
theorem crossed_last_writer :
    (∀ col < 2, ∃ side d,
      lastWriter col [Side.first, .second, .second, .first].reverse = some side ∧
        crossed.columns[col]? = some d ∧ d.inserts[(7 : RowId)]? = some (entry crossing col side)) ∧
    ((∃ side, ∀ col < 2, lastWriter col [Side.first, .second, .second, .first].reverse = some side) →
      crossed.Atomic crossing 7) ∧
    ((crossing .first).timestamp ≠ (crossing .second).timestamp → crossed.Atomic crossing 7 →
      ∃ side, ∀ col < 2, lastWriter col [Side.first, .second, .second, .first].reverse = some side) :=
  race_last_writer crossing 7 [{}, {}] (fun side => by cases side <;> decide)
    [.first, .second, .second, .first] (fun side => by cases side <;> rfl)

end Race

end ColumnarStore.Delta
