import ColumnarStore.Delta.Concurrent
import ColumnarStore.Foundation.Runs

/-! Compaction beside writers.

`CompactStores` looks at a store's flag and counter and then clears the store column by
column; an `Insert` is counted when it is done with its columns. Writers do not take the
manager's mutex, so a store may be cleared although rows have been written to it since the
look, and a row that was counted meanwhile is forgotten by the counter. A call that is
never in its columns while a compaction clears is safe from this and every later
compaction (`compaction_spares_rows`): its row stays in the store until a flush that was
handed out after the call has returned is finished. -/
namespace ColumnarStore.Delta
open Foundation

/-- One store of a manager. `compactor` is the next column of a compaction that clears,
`outstanding` has the hand-outs that are not finished, each with the rows pending and the
calls returned at the time, and `flushed` the calls of those that are. -/
structure Compacted where
  core : Concurrent
  compactor : Option Nat := none
  outstanding : List (UInt64 × List Nat) := []
  flushed : List Nat := []

/-- A step of a writer or of the compaction, or a call for a flush. -/
inductive StoreEvent where
  | call (i : Nat)
  | compact
  | handOut
  | finishFlush

namespace Compacted

def start (s : DeltaStore) (calls : List Write) : Compacted := {core := .start s calls}

def withStore (s : Compacted) (store : DeltaStore) : Compacted := {s with core := {s.core with store}}

/-- The flag and the counter are read one after the other; while the mutex is held the flag
is not set, and where it is not set the counter does not fall. -/
def compactStep (s : Compacted) : Compacted :=
  let store := s.core.store
  match s.compactor with
  | none => if !store.flushing && store.pendingRows = 0 then {s with compactor := some 0} else s
  | some col =>
    if col < store.columns.length then
      {s.withStore {store with columns := store.columns.modify col fun _ => {}} with compactor := some (col + 1)}
    else {s.withStore {store with pendingRows := 0} with compactor := none}

/-- The compaction holds the mutex until it is done. -/
def handOut (s : Compacted) : Compacted :=
  if s.compactor = none ∧ s.core.store.shouldFlush then
    {s.withStore s.core.store.beginFlush with
      outstanding := s.outstanding ++ [(s.core.store.pendingRows, s.core.finished)]}
  else s

/-- The oldest hand-out is finished with the rows that were pending at it. -/
def finishFlush (s : Compacted) : Compacted :=
  match s.outstanding with
  | [] => s
  | (rows, taken) :: rest =>
    {s.withStore (s.core.store.endFlush rows) with outstanding := rest, flushed := s.flushed ++ taken}

def step (calls : List Write) (s : Compacted) : StoreEvent → Compacted
  | .call i => {s with core := s.core.step calls i}
  | .compact => s.compactStep
  | .handOut => s.handOut
  | .finishFlush => s.finishFlush

def run (calls : List Write) (s : Compacted) (events : List StoreEvent) : Compacted := events.foldl (step calls) s

/-- Call `i` is in its columns and the compaction in its own. -/
def Overlaps (s : Compacted) (i : Nat) : Prop :=
  s.compactor ≠ none ∧ ∃ stamp col, s.core.phases[i]? = some (.writing stamp col)

/-- The store is not handed out again before its flush is finished. -/
def OneFlush (s : Compacted) (event : StoreEvent) : Prop := event = .handOut → s.outstanding = []

/-- A column has the row as one of the inserts wrote it. -/
def Holds (calls : List Write) (rowId : RowId) (s : DeltaStore) (col : Nat) : Prop :=
  ∃ d e, s.columns[col]? = some d ∧ d.inserts[rowId]? = some e ∧
    ∃ (j : Nat) (columnData : List Bytes) (timestamp : Timestamp),
      calls[j]? = some (.insert rowId columnData timestamp) ∧ columnData[col]? = some e.2

section Race
variable {calls : List Write} {s : Compacted} {i : Nat} {rowId : RowId} {columnData : List Bytes}

/-! ### What writers do to a row -/

theorem Holds.write {store : DeltaStore} {col : Nat} (h : Holds calls rowId store col) {j c : Nat} {w : Write}
    (hw : calls[j]? = some w) (hclear : w ≠ .clear) {stamp : Timestamp} {f : ColumnDelta → ColumnDelta}
    (hturn : w.turn stamp c = some f) : Holds calls rowId {store with columns := store.columns.modify c f} col := by
  obtain ⟨d, e, hd, he, hfrom⟩ := h
  have hget : (store.columns.modify c f)[col]? = some (if c = col then f d else d) := by
    rw [List.getElem?_modify, hd]
    rfl
  by_cases hc : c = col
  · rw [if_pos hc] at hget
    cases w with
    | clear => exact absurd rfl hclear
    | delete r timestamp =>
      cases hturn
      exact ⟨_, e, hget, he, hfrom⟩
    | insert r data timestamp =>
      obtain ⟨bytes, hbytes, rfl⟩ := Option.map_eq_some_iff.mp hturn
      have hrow := d.inserts_insert r rowId stamp bytes
      by_cases hr : r = rowId
      · rw [if_pos hr] at hrow
        exact ⟨_, (stamp, bytes), hget, hrow, j, data, timestamp, hr ▸ hw, hc ▸ hbytes⟩
      · rw [if_neg hr] at hrow
        exact ⟨_, e, hget, hrow.trans he, hfrom⟩
  · rw [if_neg hc] at hget
    exact ⟨d, e, hget, he, hfrom⟩

/-- An insert that writes a column puts its row there. -/
theorem holds_written {store : DeltaStore} {col : Nat} (hcol : col < store.columns.length) {timestamp : Timestamp}
    (hi : calls[i]? = some (.insert rowId columnData timestamp)) {stamp : Timestamp} {f : ColumnDelta → ColumnDelta}
    (hturn : (Write.insert rowId columnData timestamp).turn stamp col = some f) :
    Holds calls rowId {store with columns := store.columns.modify col f} col := by
  obtain ⟨bytes, hbytes, rfl⟩ := Option.map_eq_some_iff.mp hturn
  have hget : (store.columns.modify col fun d => d.insert rowId stamp bytes)[col]? =
      some (store.columns[col].insert rowId stamp bytes) := by
    rw [List.getElem?_modify, List.getElem?_eq_getElem hcol]
    exact congrArg some (if_pos rfl)
  exact ⟨_, (stamp, bytes), hget, by rw [ColumnDelta.inserts_insert, if_pos rfl], i, columnData, timestamp, hi, hbytes⟩

end Race

/-! ### What a step does -/

inductive Move (calls : List Write) (s : Compacted) : StoreEvent → Compacted → Prop where
  | call (j : Nat) (core : Concurrent) (hturn : Concurrent.Turn calls s.core j core) :
      Move calls s (.call j) {s with core}
  | look (hidle : s.compactor = none) (hflag : s.core.store.flushing = false) (hzero : s.core.store.pendingRows = 0) :
      Move calls s .compact {s with compactor := some 0}
  | clear (col : Nat) (hbusy : s.compactor = some col) (hcol : col < s.core.store.columns.length) :
      Move calls s .compact {s.withStore {s.core.store with columns := s.core.store.columns.modify col fun _ => {}} with
        compactor := some (col + 1)}
  | reset (col : Nat) (hbusy : s.compactor = some col) :
      Move calls s .compact {s.withStore {s.core.store with pendingRows := 0} with compactor := none}
  | handOut (hidle : s.compactor = none) :
      Move calls s .handOut {s.withStore s.core.store.beginFlush with
        outstanding := s.outstanding ++ [(s.core.store.pendingRows, s.core.finished)]}
  | finish (rows : UInt64) (taken : List Nat) (rest : List (UInt64 × List Nat))
      (hout : s.outstanding = (rows, taken) :: rest) :
      Move calls s .finishFlush {s.withStore (s.core.store.endFlush rows) with
        outstanding := rest, flushed := s.flushed ++ taken}
  | rest (event : StoreEvent) : Move calls s event s

theorem move_step (calls : List Write) (s : Compacted) (event : StoreEvent) :
    Move calls s event (s.step calls event) := by
  cases event with
  | call j => exact .call j _ (Concurrent.turn_step calls s.core j)
  | compact =>
    show Move calls s .compact s.compactStep
    unfold compactStep
    cases hbusy : s.compactor with
    | none =>
      dsimp only
      split
      · next hlook =>
        obtain ⟨hflag, hzero⟩ := Bool.and_eq_true_iff.mp hlook
        exact .look hbusy (by simpa using hflag) (of_decide_eq_true hzero)
      · exact .rest _
    | some col =>
      dsimp only
      split
      · next hcol => exact .clear col hbusy hcol
      · exact .reset col hbusy
  | handOut =>
    show Move calls s .handOut s.handOut
    unfold handOut
    split
    · next h => exact .handOut h.1
    · exact .rest _
  | finishFlush =>
    show Move calls s .finishFlush s.finishFlush
    unfold finishFlush
    cases hout : s.outstanding with
    | nil => exact .rest _
    | cons first rest => exact .finish first.1 first.2 rest hout

/-- No step changes the number of columns. -/
theorem length_move {calls : List Write} {s s' : Compacted} {event : StoreEvent} (hmove : Move calls s event s') :
    s'.core.store.columns.length = s.core.store.columns.length := by
  cases hmove with
  | call j core hturn => cases hturn <;> first | rfl | exact List.length_modify ..
  | clear col hbusy hcol => exact List.length_modify ..
  | _ => rfl

section Runs
variable {calls : List Write} {s s' : Compacted} {event : StoreEvent} {i : Nat} {rowId : RowId}
  {columnData : List Bytes}

/-! ### The counter and the flush -/

/-- Nothing wraps: the counter is at most the number of calls that have returned, and a
hand-out that is not finished was of no more rows than are counted. -/
structure Books (calls : List Write) (s : Compacted) : Prop where
  ordered : s.core.Ordered calls
  counted : s.core.store.pendingRows.toNat ≤ s.core.finished.length
  one : s.outstanding.length ≤ 1
  flushing : s.outstanding ≠ [] → s.core.store.flushing = true ∧ s.compactor = none
  rows : ∀ rows taken, (rows, taken) ∈ s.outstanding → rows.toNat ≤ s.core.store.pendingRows.toNat

/-- A call that is in its columns is not among those that have returned. -/
theorem Books.finished_lt (h : Books calls s) {j : Nat} {stamp : Timestamp} {col : Nat}
    (hphase : s.core.phases[j]? = some (.writing stamp col)) : s.core.finished.length < calls.length := by
  have hopen : j ∉ s.core.finished := by
    rw [h.ordered.finished j, hphase]
    simp
  have hin : ∀ k, (∃ phase, s.core.phases[k]? = some phase) → k ∈ List.range calls.length := by
    intro k hk
    obtain ⟨phase, hphase⟩ := hk
    rw [List.mem_range, ← h.ordered.phases]
    exact (List.getElem?_eq_some_iff.mp hphase).1
  have hsub : j :: s.core.finished ⊆ List.range calls.length := by
    intro k hk
    rcases List.mem_cons.mp hk with rfl | hk
    · exact hin k ⟨_, hphase⟩
    · exact hin k ⟨_, (h.ordered.finished k).mp hk⟩
  have hnodup : (j :: s.core.finished).Nodup := List.nodup_cons.mpr ⟨hopen, h.ordered.finishedOnce⟩
  have hle := (hnodup.subperm hsub).length_le
  rwa [List.length_cons, List.length_range] at hle

/-- Only the number of its columns matters of a store. -/
theorem ordered_withStore (h : s.core.Ordered calls) {store : DeltaStore}
    (hlen : store.columns.length = s.core.store.columns.length) : (s.withStore store).core.Ordered calls := by
  have hwritten : ∀ j col, Concurrent.Written calls (s.withStore store).core j col ↔
      Concurrent.Written calls s.core j col :=
    fun j col => Concurrent.written_congr s.core (s.withStore store).core rfl hlen col
  refine ⟨h.phases, h.begun, fun j stamp next hj => ?_, fun col e => ?_, h.finished, h.drawnOnce, h.writtenOnce,
    h.finishedOnce⟩
  · show (j, stamp) ∈ s.core.drawn ∧ next ≤ store.columns.length ∧ _
    rw [hlen]
    exact h.stamps j stamp next hj
  · exact (h.written col e).trans (and_congr_right' (hwritten _ _).symm)

theorem toNat_succ {n : UInt64} {k : Nat} (h : n.toNat ≤ k) (hk : k + 1 < 2 ^ 64) : (n + 1).toNat = n.toNat + 1 := by
  rw [UInt64.toNat_add]
  exact Nat.mod_eq_of_lt (by simp; omega)

/-- The counter of a store whose call returns. -/
theorem Books.counted_finish (h : Books calls s) (hlen : calls.length < 2 ^ 64) (hclear : Write.clear ∉ calls) {j : Nat}
    {w : Write} (hw : calls[j]? = some w) {stamp : Timestamp} {col : Nat}
    (hphase : s.core.phases[j]? = some (.writing stamp col)) :
    s.core.store.pendingRows.toNat ≤ (w.counted s.core.store.pendingRows).toNat ∧
      (w.counted s.core.store.pendingRows).toNat ≤ s.core.store.pendingRows.toNat + 1 := by
  have hlt := h.finished_lt hphase
  cases w with
  | clear => exact absurd (List.mem_of_getElem? hw) hclear
  | delete r timestamp => exact ⟨le_rfl, Nat.le_succ _⟩
  | insert r data timestamp =>
    have hsucc := toNat_succ h.counted (by omega)
    show _ ≤ (s.core.store.pendingRows + 1).toNat ∧ (s.core.store.pendingRows + 1).toNat ≤ _
    omega

theorem books_start (numColumns : Nat) (flushThreshold : UInt64) (calls : List Write) :
    Books calls (start (.new numColumns flushThreshold) calls) :=
  ⟨Concurrent.ordered_start _ _, Nat.le_refl 0, Nat.zero_le _, fun h => absurd rfl h,
    fun _ _ h => (List.not_mem_nil h).elim⟩

theorem Books.move (h : Books calls s) (hlen : calls.length < 2 ^ 64) (hclear : Write.clear ∉ calls)
    (hone : s.OneFlush event) (hmove : Move calls s event s') : Books calls s' := by
  cases hmove with
  | rest => exact h
  | look hidle hflag hzero =>
    refine ⟨h.ordered, h.counted, h.one, fun hne => ?_, h.rows⟩
    have hset := (h.flushing hne).1
    rw [hflag] at hset
    cases hset
  | clear col hbusy hcol =>
    refine ⟨ordered_withStore h.ordered (List.length_modify ..), h.counted, h.one, fun hne => ?_, h.rows⟩
    have hnone := (h.flushing hne).2
    rw [hbusy] at hnone
    cases hnone
  | reset col hbusy =>
    have hempty : s.outstanding = [] := by
      by_contra hne
      have hnone := (h.flushing hne).2
      rw [hbusy] at hnone
      cases hnone
    refine ⟨ordered_withStore h.ordered rfl, Nat.zero_le _, h.one, fun hne => absurd hempty hne,
      fun rows taken hmem => ?_⟩
    have hmem : (rows, taken) ∈ s.outstanding := hmem
    rw [hempty] at hmem
    cases hmem
  | handOut hidle =>
    have hempty : s.outstanding = [] := hone rfl
    refine ⟨ordered_withStore h.ordered rfl, h.counted, ?_, fun _ => ⟨rfl, hidle⟩, fun rows taken hmem => ?_⟩
    · show (s.outstanding ++ _).length ≤ 1
      rw [hempty]
      exact le_rfl
    · have hmem : (rows, taken) ∈ s.outstanding ++ [(s.core.store.pendingRows, s.core.finished)] := hmem
      rw [hempty, List.nil_append, List.mem_singleton] at hmem
      cases hmem
      exact le_rfl
  | finish rows taken rest hout =>
    have hempty : rest = [] := by
      have hone := h.one
      rw [hout, List.length_cons] at hone
      exact List.length_eq_zero_iff.mp (by omega)
    have hrows := h.rows rows taken (hout ▸ List.mem_cons_self)
    have hless : (s.core.store.pendingRows - rows).toNat = s.core.store.pendingRows.toNat - rows.toNat :=
      UInt64.toNat_sub_of_le _ _ (UInt64.le_iff_toNat_le.mpr hrows)
    refine ⟨ordered_withStore h.ordered rfl, ?_, ?_, fun hne => absurd hempty hne, fun _ _ hmem => ?_⟩
    · show (s.core.store.pendingRows - rows).toNat ≤ s.core.finished.length
      have hcounted := h.counted
      omega
    · rw [hempty]
      exact Nat.zero_le _
    · rw [hempty] at hmem
      cases hmem
  | call j core hturn =>
    have hordered := h.ordered.turn hturn
    cases hturn with
    | begin w hw hphase => exact ⟨hordered, h.counted, h.one, h.flushing, h.rows⟩
    | write w stamp col f hw hphase hcol hwrite => exact ⟨hordered, h.counted, h.one, h.flushing, h.rows⟩
    | rest hnone => exact ⟨hordered, h.counted, h.one, h.flushing, h.rows⟩
    | finish w stamp col hw hphase hend =>
      obtain ⟨hmore, hcount⟩ := h.counted_finish hlen hclear hw hphase
      refine ⟨hordered, ?_, h.one, h.flushing, fun rows taken hmem => (h.rows rows taken hmem).trans hmore⟩
      show (w.counted s.core.store.pendingRows).toNat ≤ (s.core.finished ++ [j]).length
      rw [List.length_append, List.length_singleton]
      exact hcount.trans (Nat.add_le_add_right h.counted 1)

/-! ### A call that no compaction overlaps -/

/-- Call `i` has returned and no flush of its row is finished. -/
def Unflushed (s : Compacted) (i : Nat) : Prop := s.core.phases[i]? = some .returned ∧ i ∉ s.flushed

/-- The row of call `i` is in the columns the call has written; and while it is not flushed
the compaction does not clear, for the call is counted. -/
structure Safe (calls : List Write) (i : Nat) (rowId : RowId) (columnData : List Bytes) (s : Compacted) : Prop where
  writing : ∀ stamp next, s.core.phases[i]? = some (.writing stamp next) →
    ∀ col < next, Holds calls rowId s.core.store col
  held : s.Unflushed i → ∀ col < s.core.store.columns.length, col < columnData.length →
    Holds calls rowId s.core.store col
  idle : s.Unflushed i → s.compactor = none
  counted : s.Unflushed i → s.outstanding = [] → 1 ≤ s.core.store.pendingRows.toNat
  later : s.Unflushed i → ∀ rows taken, (rows, taken) ∈ s.outstanding → i ∉ taken →
    rows.toNat + 1 ≤ s.core.store.pendingRows.toNat

/-- Nothing is said of a call that has not begun. -/
theorem Safe.of_idle (hwriting : ∀ stamp next, s.core.phases[i]? ≠ some (.writing stamp next))
    (hflushed : ¬ s.Unflushed i) : Safe calls i rowId columnData s :=
  ⟨fun stamp next h => absurd h (hwriting stamp next), fun h => absurd h hflushed, fun h => absurd h hflushed,
    fun h => absurd h hflushed, fun h => absurd h hflushed⟩

theorem safe_start (store : DeltaStore) (calls : List Write) (i : Nat) (rowId : RowId) (columnData : List Bytes) :
    Safe calls i rowId columnData (start store calls) := by
  have hwaiting : ∀ phase, (start store calls).core.phases[i]? = some phase → phase = .waiting := fun phase hphase =>
    List.eq_of_mem_replicate (List.mem_of_getElem? hphase)
  exact .of_idle (fun _ _ h => by cases hwaiting _ h) fun h => by cases hwaiting _ h.1

/-- A step that leaves the phase of the call, its row and the compaction as they are. -/
theorem Safe.congr (h : Safe calls i rowId columnData s) (hphase : s'.core.phases[i]? = s.core.phases[i]?)
    (hlen : s'.core.store.columns.length = s.core.store.columns.length)
    (hholds : ∀ col, Holds calls rowId s.core.store col → Holds calls rowId s'.core.store col)
    (hcompactor : s'.compactor = s.compactor) (hout : s'.outstanding = s.outstanding)
    (hflushed : s'.flushed = s.flushed) (hpending : s.core.store.pendingRows.toNat ≤ s'.core.store.pendingRows.toNat) :
    Safe calls i rowId columnData s' := by
  have hopen : s'.Unflushed i → s.Unflushed i := by
    unfold Unflushed
    rw [hphase, hflushed]
    exact id
  refine ⟨fun stamp next hw col hcol => ?_, fun ho col hcol hdata => ?_, fun ho => ?_, fun ho hempty => ?_,
    fun ho rows taken hmem htaken => ?_⟩
  · exact hholds col (h.writing stamp next (hphase ▸ hw) col hcol)
  · exact hholds col (h.held (hopen ho) col (hlen ▸ hcol) hdata)
  · exact hcompactor.trans (h.idle (hopen ho))
  · exact (h.counted (hopen ho) (hout ▸ hempty)).trans hpending
  · exact (h.later (hopen ho) rows taken (hout ▸ hmem) htaken).trans hpending

/-- While the compaction clears, the call waits or its row is flushed. -/
theorem Safe.busy (h : Safe calls i rowId columnData s) (hapart : ¬ s.Overlaps i) (hbusy : s.compactor ≠ none) :
    (∀ stamp next, s.core.phases[i]? ≠ some (.writing stamp next)) ∧ ¬ s.Unflushed i :=
  ⟨fun stamp next hphase => hapart ⟨hbusy, stamp, next, hphase⟩, fun hopen => hbusy (h.idle hopen)⟩

section Call
variable {timestamp : Timestamp} (hi : calls[i]? = some (.insert rowId columnData timestamp))
include hi

/-- The call is in its loop. -/
theorem Safe.write (h : Safe calls i rowId columnData s) (hclear : Write.clear ∉ calls) {w : Write} {stamp : Timestamp}
    {col : Nat} {f : ColumnDelta → ColumnDelta} (hw : calls[i]? = some w)
    (hphase : s.core.phases[i]? = some (.writing stamp col)) (hcol : col < s.core.store.columns.length)
    (hwrite : w.turn stamp col = some f) :
    Safe calls i rowId columnData {s with core := s.core.write i stamp col f} := by
  have hget : (s.core.write i stamp col f).phases[i]? = some (.writing stamp (col + 1)) :=
    (getElem?_set_moved hphase _ i).trans (if_pos rfl)
  have hw' : w ≠ .clear := fun heq => hclear (heq ▸ List.mem_of_getElem? hw)
  have hopen : ¬ Unflushed {s with core := s.core.write i stamp col f} i := fun ho => by cases hget.symm.trans ho.1
  cases hi.symm.trans hw
  refine ⟨fun stamp' next hnext c hc => ?_, fun ho => absurd ho hopen, fun ho => absurd ho hopen,
    fun ho => absurd ho hopen, fun ho => absurd ho hopen⟩
  cases hget.symm.trans hnext
  rcases Nat.lt_succ_iff_lt_or_eq.mp hc with hc | rfl
  · exact (h.writing stamp col hphase c hc).write hw hw' hwrite
  · exact holds_written hcol hi hwrite

/-- The call returns: its row is in all its columns, and it is counted behind what was handed out. -/
theorem Safe.finish (h : Safe calls i rowId columnData s) (hbooks : Books calls s) (hlen : calls.length < 2 ^ 64)
    (hapart : ¬ s.Overlaps i) {w : Write} {stamp : Timestamp} {col : Nat} (hw : calls[i]? = some w)
    (hphase : s.core.phases[i]? = some (.writing stamp col))
    (hend : s.core.store.columns.length ≤ col ∨ w.turn stamp col = none) :
    Safe calls i rowId columnData {s with core := s.core.finish i w} := by
  have hget : (s.core.finish i w).phases[i]? = some .returned := (getElem?_set_moved hphase _ i).trans (if_pos rfl)
  have hlt := hbooks.finished_lt hphase
  have hsucc := toNat_succ hbooks.counted (by omega)
  cases hi.symm.trans hw
  refine ⟨fun stamp' next hnext => ?_, fun _ c hc hdata => ?_, fun _ => ?_, fun _ _ => ?_,
    fun _ rows taken hmem _ => ?_⟩
  · cases hget.symm.trans hnext
  · refine h.writing stamp col hphase c ?_
    rcases hend with hend | hend
    · exact lt_of_lt_of_le hc hend
    · exact lt_of_lt_of_le hdata (List.getElem?_eq_none_iff.mp (Option.map_eq_none_iff.mp hend))
  · by_contra hbusy
    exact hapart ⟨hbusy, stamp, col, hphase⟩
  · show 1 ≤ (s.core.store.pendingRows + 1).toNat
    omega
  · show rows.toNat + 1 ≤ (s.core.store.pendingRows + 1).toNat
    have hrows := hbooks.rows rows taken hmem
    omega

theorem Safe.call (h : Safe calls i rowId columnData s) (hbooks : Books calls s) (hlen : calls.length < 2 ^ 64)
    (hclear : Write.clear ∉ calls) (hapart : ¬ s.Overlaps i) {j : Nat} {core : Concurrent}
    (hturn : Concurrent.Turn calls s.core j core) : Safe calls i rowId columnData {s with core} := by
  cases hturn with
  | rest hnone => exact h
  | begin w hw hphase =>
    have hget := getElem?_set_moved hphase (.writing (w.draw s.core.store).1 0) i
    by_cases hj : i = j
    · rw [if_pos hj] at hget
      refine ⟨fun stamp next hnext col hcol => ?_, fun ho => ?_, fun ho => ?_, fun ho => ?_, fun ho => ?_⟩
      · cases hget.symm.trans hnext
        exact absurd hcol (Nat.not_lt_zero _)
      all_goals cases hget.symm.trans ho.1
    · rw [if_neg hj] at hget
      exact h.congr hget rfl (fun col hcol => hcol) rfl rfl rfl le_rfl
  | write w stamp col f hw hphase hcol hwrite =>
    by_cases hj : i = j
    · subst hj
      exact h.write hi hclear hw hphase hcol hwrite
    · have hw' : w ≠ .clear := fun heq => hclear (heq ▸ List.mem_of_getElem? hw)
      exact h.congr ((getElem?_set_moved hphase _ i).trans (if_neg hj)) (List.length_modify ..)
        (fun c hc => hc.write hw hw' hwrite) rfl rfl rfl le_rfl
  | finish w stamp col hw hphase hend =>
    by_cases hj : i = j
    · subst hj
      exact h.finish hi hbooks hlen hapart hw hphase hend
    · exact h.congr ((getElem?_set_moved hphase _ i).trans (if_neg hj)) rfl (fun c hc => hc) rfl rfl rfl
        (hbooks.counted_finish hlen hclear hw hphase).1

theorem Safe.move (h : Safe calls i rowId columnData s) (hbooks : Books calls s) (hlen : calls.length < 2 ^ 64)
    (hclear : Write.clear ∉ calls) (hapart : ¬ s.Overlaps i) (hone : s.OneFlush event)
    (hmove : Move calls s event s') : Safe calls i rowId columnData s' := by
  cases hmove with
  | rest => exact h
  | call j core hturn => exact h.call hi hbooks hlen hclear hapart hturn
  | look hidle hflag hzero =>
    -- A row that is not flushed is counted, or handed out, and then the flag is set.
    have hopen : ¬ s.Unflushed i := by
      intro hopen
      have hempty : s.outstanding = [] := by
        by_contra hne
        have hset := (hbooks.flushing hne).1
        rw [hflag] at hset
        cases hset
      have hcounted := h.counted hopen hempty
      rw [hzero] at hcounted
      exact absurd hcounted (by decide)
    exact ⟨h.writing, h.held, fun ho => absurd ho hopen, fun ho => absurd ho hopen, h.later⟩
  | clear col hbusy hcol =>
    obtain ⟨hwriting, hopen⟩ := h.busy hapart (by simp [hbusy])
    exact .of_idle hwriting hopen
  | reset col hbusy =>
    obtain ⟨hwriting, hopen⟩ := h.busy hapart (by simp [hbusy])
    exact .of_idle hwriting hopen
  | handOut hidle =>
    refine ⟨h.writing, h.held, h.idle, fun _ hempty => ?_, fun ho rows taken hmem htaken => ?_⟩
    · have hempty : s.outstanding ++ [(s.core.store.pendingRows, s.core.finished)] = [] := hempty
      simp at hempty
    · have hmem : (rows, taken) ∈ s.outstanding ++ [(s.core.store.pendingRows, s.core.finished)] := hmem
      rw [hone rfl, List.nil_append, List.mem_singleton] at hmem
      cases hmem
      exact absurd ((hbooks.ordered.finished i).mpr ho.1) htaken
  | finish rows taken rest hout =>
    have hin : (rows, taken) ∈ s.outstanding := hout ▸ List.mem_cons_self
    have hless : (s.core.store.pendingRows - rows).toNat = s.core.store.pendingRows.toNat - rows.toNat :=
      UInt64.toNat_sub_of_le _ _ (UInt64.le_iff_toNat_le.mpr (hbooks.rows rows taken hin))
    have hempty : rest = [] := by
      have hone := hbooks.one
      rw [hout, List.length_cons] at hone
      exact List.length_eq_zero_iff.mp (by omega)
    have hbefore : ∀ ho : s.core.phases[i]? = some .returned ∧ i ∉ s.flushed ++ taken, s.Unflushed i := fun ho =>
      ⟨ho.1, fun hmem => ho.2 (List.mem_append_left _ hmem)⟩
    refine ⟨h.writing, fun ho => h.held (hbefore ho), fun ho => h.idle (hbefore ho), fun ho _ => ?_,
      fun ho rows' taken' hmem => ?_⟩
    · have hlater := h.later (hbefore ho) rows taken hin fun hmem => ho.2 (List.mem_append_right _ hmem)
      show 1 ≤ (s.core.store.pendingRows - rows).toNat
      omega
    · rw [hempty] at hmem
      cases hmem

end Call

end Runs

/-- **In every interleaving of writers, compactions and flushes, a row whose insert has
returned and was never in its columns beside a compaction that clears stays in the store,
and the compaction does not clear, until a flush handed out after that is finished.** -/
theorem compaction_spares_rows (numColumns : Nat) (flushThreshold : UInt64) (calls : List Write)
    (hclear : Write.clear ∉ calls) (hlen : calls.length < 2 ^ 64) (events : List StoreEvent)
    (hone : Along (step calls) OneFlush (start (.new numColumns flushThreshold) calls) events) (i : Nat) (rowId : RowId)
    (columnData : List Bytes) (timestamp : Timestamp) (hi : calls[i]? = some (.insert rowId columnData timestamp))
    (hapart : Along (step calls) (fun s _ => ¬ s.Overlaps i) (start (.new numColumns flushThreshold) calls) events) :
    let s := (start (.new numColumns flushThreshold) calls).run calls events
    i ∈ s.core.finished → i ∉ s.flushed →
      s.compactor = none ∧ ∀ col < numColumns, col < columnData.length → Holds calls rowId s.core.store col := by
  intro s hfinished hflushed
  have hsteps := along_and.mpr ⟨hone, hapart⟩
  have hkeep : ∀ s event, Books calls s ∧ Safe calls i rowId columnData s ∧ s.core.store.columns.length = numColumns →
      s.OneFlush event ∧ ¬ s.Overlaps i → Books calls (s.step calls event) ∧
        Safe calls i rowId columnData (s.step calls event) ∧
        (s.step calls event).core.store.columns.length = numColumns := by
    intro s event h happens
    obtain ⟨hbooks, hsafe, hcols⟩ := h
    have hmove := move_step calls s event
    exact ⟨hbooks.move hlen hclear happens.1 hmove, hsafe.move hi hbooks hlen hclear happens.2 happens.1 hmove,
      (length_move hmove).trans hcols⟩
  obtain ⟨hbooks, hsafe, hcols⟩ := hsteps.keeps hkeep
    ⟨books_start numColumns flushThreshold calls, safe_start _ calls i rowId columnData, List.length_replicate⟩
  have hopen : s.Unflushed i := ⟨(hbooks.ordered.finished i).mp hfinished, hflushed⟩
  exact ⟨hsafe.idle hopen, fun col hcol => hsafe.held hopen col (hcol.trans_eq hcols.symm)⟩

/-- A compaction that finds the row counted. -/
theorem counted_spared : Holds [.insert 7 [[1]] 0] 7
    ((start (.new 1 1) [.insert 7 [[1]] 0]).run [.insert 7 [[1]] 0]
      [.call 0, .call 0, .call 0, .compact]).core.store 0 :=
  (compaction_spares_rows 1 1 [.insert 7 [[1]] 0] (by simp) (by decide) [.call 0, .call 0, .call 0, .compact]
    (along_of_forall (fun event hevent s heq => by subst heq; simp at hevent) _) 0 7 [[1]] 0 rfl
    ⟨fun h => h.1 rfl, fun h => h.1 rfl, fun h => h.1 rfl, fun h => h.1 rfl, trivial⟩ (by decide) (by decide)).2 0
    (by decide) (by decide)

/-- The compaction looks before the row is counted and clears after it is written. -/
example : ((start (.new 1 1) [.insert 7 [[1]] 0]).run [.insert 7 [[1]] 0]
    [.call 0, .call 0, .compact, .compact, .call 0]).core.store.get 0 7 = none := by decide +kernel

end Compacted

end ColumnarStore.Delta
