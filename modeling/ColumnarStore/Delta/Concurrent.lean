import ColumnarStore.Foundation.Sharing
import ColumnarStore.Delta.History

/-! Writes at the same time.

`Insert`, `Delete` and `Clear` draw a timestamp and then lock one column after the other.
Any number of such calls run at once; a step of a call draws its timestamp, writes one
column under its lock, or ends the call. Each column is at every moment what the writes
that have come to it leave, one after the other in the order they came
(`columns_linearized`). Columns may disagree on that order, but if no two inserts and no
two deletes are for the same row it does not matter: when all calls have returned, the
store reads as if they had been made one after the other in the order in which they drew
their timestamps (`concurrent_serializable`). -/
namespace ColumnarStore.Delta
open Foundation

/-! ### Calls by their steps -/

namespace Write

/-- The timestamp a call draws, and the counter after it; `Clear` draws none. -/
def draw (s : DeltaStore) : Write → Timestamp × Timestamp
  | insert _ _ timestamp => (s.stamp timestamp, s.clock timestamp)
  | delete _ timestamp => (s.stamp timestamp, s.clock timestamp)
  | clear => (0, s.globalTimestamp)

/-- What the call does to a column under its lock, until it has no more to do. -/
def turn (stamp : Timestamp) (col : Nat) : Write → Option (ColumnDelta → ColumnDelta)
  | insert rowId columnData _ => columnData[col]?.map fun data d => d.insert rowId stamp data
  | delete rowId _ => some fun d => d.delete rowId stamp
  | clear => some fun _ => {}

/-- The loop of the call comes to the column. -/
def touches (col : Nat) : Write → Bool
  | insert _ columnData _ => decide (col < columnData.length)
  | delete .. => true
  | clear => true

theorem isSome_turn (stamp : Timestamp) (col : Nat) (w : Write) : (w.turn stamp col).isSome = w.touches col := by
  cases w with
  | insert rowId columnData timestamp =>
    rw [turn, touches, Option.isSome_map]
    exact Bool.eq_iff_iff.mpr (by simp)
  | delete rowId timestamp => rfl
  | clear => rfl

theorem touches_of_le {w : Write} {col col' : Nat} (hle : col ≤ col') (h : w.touches col' = true) :
    w.touches col = true := by
  cases w with
  | insert rowId columnData timestamp => exact decide_eq_true (hle.trans_lt (of_decide_eq_true h))
  | delete rowId timestamp => rfl
  | clear => rfl

/-- The pending rows when the call has returned. -/
def counted (pendingRows : UInt64) : Write → UInt64
  | insert .. => pendingRows + 1
  | delete .. => pendingRows
  | clear => 0

/-- What the call as a whole does to a column. -/
def effect (stamp : Timestamp) (col : Nat) (w : Write) (d : ColumnDelta) : ColumnDelta :=
  match w.turn stamp col with
  | some f => f d
  | none => d

/-- A call that is made alone. -/
theorem getElem?_apply (s : DeltaStore) (w : Write) (col : Nat) :
    (w.apply s).columns[col]? = s.columns[col]?.map (w.effect (w.draw s).1 col) := by
  cases w with
  | insert rowId columnData timestamp =>
    show (s.columns.mapIdx _)[col]? = _
    rw [List.getElem?_mapIdx]
    cases s.columns[col]? with
    | none => rfl
    | some d => cases hdata : columnData[col]? <;> simp [effect, turn, draw, hdata]
  | delete rowId timestamp => exact List.getElem?_map ..
  | clear => exact List.getElem?_map ..

theorem globalTimestamp_apply (s : DeltaStore) (w : Write) : (w.apply s).globalTimestamp = (w.draw s).2 := by
  cases w <;> rfl

theorem pendingRows_apply (s : DeltaStore) (w : Write) : (w.apply s).pendingRows = w.counted s.pendingRows := by
  cases w <;> rfl

end Write

/-- A call that has not begun, that is in its loop over the columns, or that has returned. -/
inductive CallPhase where
  | waiting
  | writing (stamp : Timestamp) (col : Nat)
  | returned
  deriving DecidableEq

/-- `drawn` has the calls that have begun, with their timestamps, `locked` the columns that
were written and by whom, and `finished` the calls that have returned, each in order. -/
structure Concurrent where
  store : DeltaStore
  phases : List CallPhase
  drawn : List (Nat × Timestamp) := []
  locked : List (Nat × Nat × Timestamp) := []
  finished : List Nat := []

namespace Concurrent

def start (s : DeltaStore) (calls : List Write) : Concurrent :=
  {store := s, phases := List.replicate calls.length .waiting}

/-- Call `i` begins. -/
def begin (s : Concurrent) (i : Nat) (w : Write) : Concurrent :=
  let (stamp, clock) := w.draw s.store
  {s with
    store := {s.store with globalTimestamp := clock}
    phases := s.phases.set i (.writing stamp 0)
    drawn := s.drawn ++ [(i, stamp)]}

/-- Call `i` writes a column under its lock. -/
def write (s : Concurrent) (i : Nat) (stamp : Timestamp) (col : Nat) (f : ColumnDelta → ColumnDelta) : Concurrent :=
  {s with
    store := {s.store with columns := s.store.columns.modify col f}
    phases := s.phases.set i (.writing stamp (col + 1))
    locked := s.locked ++ [(col, i, stamp)]}

/-- Call `i` has come to the end of its loop. -/
def finish (s : Concurrent) (i : Nat) (w : Write) : Concurrent :=
  {s with
    store := {s.store with pendingRows := w.counted s.store.pendingRows}
    phases := s.phases.set i .returned
    finished := s.finished ++ [i]}

/-- The next step of call `i`. -/
def step (calls : List Write) (s : Concurrent) (i : Nat) : Concurrent :=
  match calls[i]?, s.phases[i]? with
  | some w, some .waiting => s.begin i w
  | some w, some (.writing stamp col) =>
    match if col < s.store.columns.length then w.turn stamp col else none with
    | some f => s.write i stamp col f
    | none => s.finish i w
  | _, _ => s

def run (calls : List Write) (s : Concurrent) (schedule : List Nat) : Concurrent := schedule.foldl (step calls) s

/-- The calls that have come to a column, in the order they came. -/
def order (s : Concurrent) (col : Nat) : List (Nat × Timestamp) :=
  s.locked.filterMap fun e => if e.1 = col then some e.2 else none

/-- What calls do to a column, one after the other. -/
def applied (calls : List Write) (col : Nat) (d : ColumnDelta) (order : List (Nat × Timestamp)) : ColumnDelta :=
  order.foldl (fun d e => match calls[e.1]? with | some w => w.effect e.2 col d | none => d) d

def AllReturned (s : Concurrent) : Prop := ∀ phase ∈ s.phases, phase = .returned

instance (s : Concurrent) : Decidable s.AllReturned := inferInstanceAs (Decidable (∀ phase ∈ s.phases, _))

/-! ### What a step does -/

/-- The ways a step of a call can go. -/
inductive Turn (calls : List Write) (s : Concurrent) (i : Nat) : Concurrent → Prop where
  | begin (w : Write) (hw : calls[i]? = some w) (hphase : s.phases[i]? = some .waiting) : Turn calls s i (s.begin i w)
  | write (w : Write) (stamp : Timestamp) (col : Nat) (f : ColumnDelta → ColumnDelta) (hw : calls[i]? = some w)
      (hphase : s.phases[i]? = some (.writing stamp col)) (hcol : col < s.store.columns.length)
      (hturn : w.turn stamp col = some f) : Turn calls s i (s.write i stamp col f)
  | finish (w : Write) (stamp : Timestamp) (col : Nat) (hw : calls[i]? = some w)
      (hphase : s.phases[i]? = some (.writing stamp col))
      (hend : s.store.columns.length ≤ col ∨ w.turn stamp col = none) : Turn calls s i (s.finish i w)
  | rest (hnone : calls[i]? = none ∨ s.phases[i]? = none ∨ s.phases[i]? = some .returned) : Turn calls s i s

theorem turn_step (calls : List Write) (s : Concurrent) (i : Nat) : Turn calls s i (s.step calls i) := by
  unfold step
  cases hw : calls[i]? with
  | none => exact .rest (.inl hw)
  | some w =>
    cases hphase : s.phases[i]? with
    | none => exact .rest (.inr (.inl hphase))
    | some phase =>
      cases phase with
      | waiting => exact .begin w hw hphase
      | returned => exact .rest (.inr (.inr hphase))
      | writing stamp col =>
        dsimp only
        by_cases hcol : col < s.store.columns.length
        · rw [if_pos hcol]
          cases hturn : w.turn stamp col with
          | some f => exact .write w stamp col f hw hphase hcol hturn
          | none => exact .finish w stamp col hw hphase (.inr hturn)
        · rw [if_neg hcol]
          exact .finish w stamp col hw hphase (.inl (not_lt.mp hcol))

/-- What every step keeps holds after a run. -/
theorem run_keeps {calls : List Write} {inv : Concurrent → Prop}
    (hstep : ∀ s i s', inv s → Turn calls s i s' → inv s') {s : Concurrent} (h : inv s) (schedule : List Nat) :
    inv (s.run calls schedule) := by
  induction schedule generalizing s with
  | nil => exact h
  | cons i rest ih => exact ih (hstep s i _ h (turn_step calls s i))

theorem run_append (calls : List Write) (s : Concurrent) (a b : List Nat) :
    s.run calls (a ++ b) = (s.run calls a).run calls b := List.foldl_append ..

variable {calls : List Write} {s₀ : DeltaStore} {s s' : Concurrent} {i : Nat}

/-! ### One column -/

theorem applied_concat (col : Nat) (d : ColumnDelta) (order : List (Nat × Timestamp)) (stamp : Timestamp) {w : Write}
    (hw : calls[i]? = some w) :
    applied calls col d (order ++ [(i, stamp)]) = w.effect stamp col (applied calls col d order) := by
  unfold applied
  rw [List.foldl_append, List.foldl_cons, List.foldl_nil, hw]

/-- A write of a column puts its call at the end of the column's order. -/
theorem order_concat {locked : List (Nat × Nat × Timestamp)} (hlocked : s.locked = locked) (c : Nat)
    (stamp : Timestamp) (hlocked' : s'.locked = locked ++ [(c, i, stamp)]) (col : Nat) :
    s'.order col = s.order col ++ if c = col then [(i, stamp)] else [] := by
  rw [order, order, hlocked', hlocked, List.filterMap_append]
  congr 1
  by_cases hc : c = col <;> simp [hc]

/-- Every column is what the calls that have come to it leave. -/
structure Columns (calls : List Write) (s₀ : DeltaStore) (s : Concurrent) : Prop where
  length : s.store.columns.length = s₀.columns.length
  applied : ∀ (col : Nat) (d : ColumnDelta), s₀.columns[col]? = some d →
    s.store.columns[col]? = some (applied calls col d (s.order col))

theorem columns_start (calls : List Write) (s₀ : DeltaStore) : Columns calls s₀ (start s₀ calls) :=
  ⟨rfl, fun _ _ hd => hd⟩

theorem Columns.turn (h : Columns calls s₀ s) (hturn : Turn calls s i s') : Columns calls s₀ s' := by
  cases hturn with
  | begin w hw hphase => exact ⟨h.length, h.applied⟩
  | finish w stamp col hw hphase hend => exact ⟨h.length, h.applied⟩
  | rest hnone => exact h
  | write w stamp c f hw hphase hcol hturn =>
    refine ⟨(List.length_modify ..).trans h.length, fun col d hd => ?_⟩
    have hbefore := h.applied col d hd
    have hset : (s.write i stamp c f).store.columns[col]? =
        some (if c = col then f (Concurrent.applied calls col d (s.order col))
          else Concurrent.applied calls col d (s.order col)) := by
      show (s.store.columns.modify c f)[col]? = _
      rw [List.getElem?_modify, hbefore]
      rfl
    rw [order_concat rfl c stamp rfl col, hset]
    by_cases hc : c = col
    · subst hc
      rw [if_pos rfl, if_pos rfl, applied_concat c d _ stamp hw, Write.effect, hturn]
    · rw [if_neg hc, if_neg hc, List.append_nil]

/-! ### Who has come to a column -/

/-- Call `i` has written column `col`: it is past it in its loop, or has returned. -/
def Written (calls : List Write) (s : Concurrent) (i col : Nat) : Prop :=
  match s.phases[i]? with
  | some (.writing _ next) => col < next
  | some .returned => col < s.store.columns.length ∧ ∃ w, calls[i]? = some w ∧ w.touches col = true
  | _ => False

/-- The calls that have begun, those that have come to a column, and those that have
returned, each once. -/
structure Ordered (calls : List Write) (s : Concurrent) : Prop where
  phases : s.phases.length = calls.length
  begun : ∀ i, i ∈ s.drawn.map Prod.fst ↔ ∃ phase, s.phases[i]? = some phase ∧ phase ≠ .waiting
  stamps : ∀ i stamp next, s.phases[i]? = some (.writing stamp next) → (i, stamp) ∈ s.drawn ∧
    next ≤ s.store.columns.length ∧ ∃ w, calls[i]? = some w ∧ ∀ col < next, w.touches col = true
  written : ∀ col e, e ∈ s.order col ↔ e ∈ s.drawn ∧ Written calls s e.1 col
  finished : ∀ i, i ∈ s.finished ↔ s.phases[i]? = some .returned
  drawnOnce : (s.drawn.map Prod.fst).Nodup
  writtenOnce : ∀ col, ((s.order col).map Prod.fst).Nodup
  finishedOnce : s.finished.Nodup

/-- Of another call nothing changes. -/
theorem written_congr (s s' : Concurrent) {j : Nat} (hphase : s'.phases[j]? = s.phases[j]?)
    (hlen : s'.store.columns.length = s.store.columns.length) (col : Nat) :
    Written calls s' j col ↔ Written calls s j col := by
  unfold Written
  rw [hphase, hlen]

theorem ordered_start (calls : List Write) (s₀ : DeltaStore) : Ordered calls (start s₀ calls) where
  phases := List.length_replicate
  begun i := by
    refine iff_of_false List.not_mem_nil fun h => ?_
    obtain ⟨phase, hphase, hne⟩ := h
    exact hne (List.eq_of_mem_replicate (List.mem_of_getElem? hphase))
  stamps i stamp next hphase := by
    cases List.eq_of_mem_replicate (List.mem_of_getElem? hphase)
  written col e := iff_of_false List.not_mem_nil fun h => List.not_mem_nil h.1
  finished i := by
    refine iff_of_false List.not_mem_nil fun hphase => ?_
    cases List.eq_of_mem_replicate (List.mem_of_getElem? hphase)
  drawnOnce := List.nodup_nil
  writtenOnce col := List.nodup_nil
  finishedOnce := List.nodup_nil

section Turns
variable {w : Write} {stamp : Timestamp} {col : Nat}

theorem Ordered.begin (h : Ordered calls s) (hw : calls[i]? = some w) (hphase : s.phases[i]? = some .waiting) :
    Ordered calls (s.begin i w) := by
  have hget : ∀ j, (s.begin i w).phases[j]? = if j = i then some (.writing (w.draw s.store).1 0) else s.phases[j]? :=
    getElem?_set_moved hphase _
  have hfresh : i ∉ s.drawn.map Prod.fst := by
    intro hi
    obtain ⟨phase, hphase', hne⟩ := (h.begun i).mp hi
    exact hne (Option.some.inj (hphase'.symm.trans hphase))
  have hdrawn : (s.begin i w).drawn = s.drawn ++ [(i, (w.draw s.store).1)] := rfl
  refine ⟨List.length_set.trans h.phases, fun j => ?_, fun j st next hj => ?_, fun c e => ?_, fun j => ?_, ?_,
    h.writtenOnce, h.finishedOnce⟩
  · rw [hdrawn, List.map_append, List.mem_append, h.begun j, hget j]
    by_cases hj : j = i
    · rw [if_pos hj, hj]
      exact iff_of_true (.inr List.mem_cons_self) ⟨_, rfl, by simp⟩
    · rw [if_neg hj]
      exact or_iff_left fun hmem => hj (List.mem_singleton.mp hmem)
  · rw [hget j] at hj
    rw [hdrawn]
    by_cases hji : j = i
    · rw [if_pos hji] at hj
      cases hj
      rw [hji]
      exact ⟨List.mem_append_right _ List.mem_cons_self, Nat.zero_le _, w, hw,
        fun _ hlt => absurd hlt (Nat.not_lt_zero _)⟩
    · rw [if_neg hji] at hj
      obtain ⟨hmem, hrest⟩ := h.stamps j st next hj
      exact ⟨List.mem_append_left _ hmem, hrest⟩
  · show e ∈ s.order c ↔ _
    rw [h.written c e, hdrawn, List.mem_append]
    by_cases hei : e.1 = i
    · refine iff_of_false (fun hmem => hfresh (hei ▸ List.mem_map_of_mem hmem.1)) fun hmem => ?_
      obtain ⟨-, hnone⟩ := hmem
      unfold Written at hnone
      rw [hget e.1, if_pos hei] at hnone
      exact Nat.not_lt_zero _ hnone
    · rw [written_congr s (s.begin i w) (by rw [hget, if_neg hei]) rfl]
      refine and_congr_left' (or_iff_left fun hmem => hei ?_).symm
      rw [List.mem_singleton.mp hmem]
  · show j ∈ s.finished ↔ _
    rw [h.finished j, hget j]
    by_cases hj : j = i
    · rw [if_pos hj, hj, hphase]
      simp
    · rw [if_neg hj]
  · rw [hdrawn, List.map_append, List.nodup_append]
    refine ⟨h.drawnOnce, List.nodup_singleton _, fun a ha b hb hab => hfresh ?_⟩
    rw [List.map_singleton, List.mem_singleton] at hb
    rwa [hab, hb] at ha

theorem Ordered.write (h : Ordered calls s) {f : ColumnDelta → ColumnDelta} (hw : calls[i]? = some w)
    (hphase : s.phases[i]? = some (.writing stamp col)) (hcol : col < s.store.columns.length)
    (hturn : w.turn stamp col = some f) : Ordered calls (s.write i stamp col f) := by
  have hget : ∀ j, (s.write i stamp col f).phases[j]? =
      if j = i then some (.writing stamp (col + 1)) else s.phases[j]? := getElem?_set_moved hphase _
  have hlen : (s.write i stamp col f).store.columns.length = s.store.columns.length := List.length_modify ..
  have horder : ∀ c, (s.write i stamp col f).order c = s.order c ++ if col = c then [(i, stamp)] else [] :=
    order_concat rfl col stamp rfl
  obtain ⟨hdrawn, hle, w', hw', htouches⟩ := h.stamps i stamp col hphase
  cases hw'.symm.trans hw
  have hown : ∀ c, Written calls s i c ↔ c < col := by
    intro c
    unfold Written
    rw [hphase]
  have hnext : ∀ c, Written calls (s.write i stamp col f) i c ↔ c < col + 1 := by
    intro c
    unfold Written
    rw [hget i, if_pos rfl]
  refine ⟨List.length_set.trans h.phases, fun j => ?_, fun j st next hj => ?_, fun c e => ?_, fun j => ?_, h.drawnOnce,
    fun c => ?_, h.finishedOnce⟩
  · show j ∈ s.drawn.map Prod.fst ↔ _
    rw [h.begun j, hget j]
    by_cases hj : j = i
    · rw [if_pos hj, hj, hphase]
      exact iff_of_true ⟨_, rfl, by simp⟩ ⟨_, rfl, by simp⟩
    · rw [if_neg hj]
  · rw [hget j] at hj
    rw [hlen]
    by_cases hji : j = i
    · rw [if_pos hji] at hj
      cases hj
      rw [hji]
      refine ⟨hdrawn, hcol, w, hw, fun c hc => ?_⟩
      rcases Nat.lt_succ_iff_lt_or_eq.mp hc with hc | rfl
      · exact htouches c hc
      · rw [← Write.isSome_turn stamp, hturn]
        rfl
    · rw [if_neg hji] at hj
      exact h.stamps j st next hj
  · rw [horder c, List.mem_append, h.written c e]
    show _ ↔ e ∈ s.drawn ∧ _
    by_cases hei : e.1 = i
    · rw [hei, hown c, hnext c]
      by_cases hc : col = c
      · subst hc
        rw [if_pos rfl, List.mem_singleton]
        constructor
        · rintro (⟨-, hlt⟩ | rfl)
          · exact absurd hlt (lt_irrefl _)
          · exact ⟨hdrawn, Nat.lt_succ_self _⟩
        · intro hmem
          exact .inr (List.inj_on_of_nodup_map h.drawnOnce hmem.1 hdrawn hei)
      · rw [if_neg hc, or_iff_left List.not_mem_nil]
        refine and_congr_right' ?_
        omega
    · rw [written_congr s (s.write i stamp col f) (by rw [hget, if_neg hei]) hlen]
      refine or_iff_left fun hmem => hei ?_
      split at hmem
      · rw [List.mem_singleton.mp hmem]
      · exact absurd hmem List.not_mem_nil
  · show j ∈ s.finished ↔ _
    rw [h.finished j, hget j]
    by_cases hj : j = i
    · rw [if_pos hj, hj, hphase]
      simp
    · rw [if_neg hj]
  · rw [horder c]
    split
    · next hc =>
      rw [List.map_append, List.nodup_append]
      refine ⟨h.writtenOnce c, List.nodup_singleton _, fun a ha b hb hab => ?_⟩
      rw [List.map_singleton, List.mem_singleton] at hb
      obtain ⟨e, he, rfl⟩ := List.mem_map.mp ha
      have hbefore := ((h.written c e).mp he).2
      rw [hab, hb, hown c, hc] at hbefore
      exact lt_irrefl _ hbefore
    · rw [List.append_nil]
      exact h.writtenOnce c

theorem Ordered.finish (h : Ordered calls s) (hw : calls[i]? = some w)
    (hphase : s.phases[i]? = some (.writing stamp col))
    (hend : s.store.columns.length ≤ col ∨ w.turn stamp col = none) : Ordered calls (s.finish i w) := by
  have hget : ∀ j, (s.finish i w).phases[j]? = if j = i then some .returned else s.phases[j]? :=
    getElem?_set_moved hphase _
  obtain ⟨hdrawn, hle, w', hw', htouches⟩ := h.stamps i stamp col hphase
  cases hw'.symm.trans hw
  have hown : ∀ c, Written calls (s.finish i w) i c ↔ Written calls s i c := by
    intro c
    unfold Written
    rw [hget i, if_pos rfl, hphase]
    show (c < s.store.columns.length ∧ ∃ w, calls[i]? = some w ∧ w.touches c = true) ↔ c < col
    constructor
    · intro hwritten
      obtain ⟨hc, w', hw', htouch⟩ := hwritten
      cases hw'.symm.trans hw
      by_contra hge
      rcases hend with hend | hend
      · omega
      · rw [← Option.not_isSome_iff_eq_none, Write.isSome_turn] at hend
        exact hend (Write.touches_of_le (not_lt.mp hge) htouch)
    · exact fun hc => ⟨hc.trans_le hle, w, hw, htouches c hc⟩
  have hopen : i ∉ s.finished := by
    rw [h.finished i, hphase]
    simp
  have hfinished : (s.finish i w).finished = s.finished ++ [i] := rfl
  refine ⟨List.length_set.trans h.phases, fun j => ?_, fun j st next hj => ?_, fun c e => ?_, fun j => ?_, h.drawnOnce,
    h.writtenOnce, ?_⟩
  · show j ∈ s.drawn.map Prod.fst ↔ _
    rw [h.begun j, hget j]
    by_cases hj : j = i
    · rw [if_pos hj, hj, hphase]
      exact iff_of_true ⟨_, rfl, by simp⟩ ⟨_, rfl, by simp⟩
    · rw [if_neg hj]
  · rw [hget j] at hj
    by_cases hji : j = i
    · rw [if_pos hji] at hj
      cases hj
    · rw [if_neg hji] at hj
      exact h.stamps j st next hj
  · show e ∈ s.order c ↔ e ∈ s.drawn ∧ _
    rw [h.written c e]
    by_cases hei : e.1 = i
    · rw [hei, hown c]
    · rw [written_congr s (s.finish i w) (by rw [hget, if_neg hei]) rfl]
  · rw [hfinished, List.mem_append, h.finished j, hget j]
    by_cases hj : j = i
    · rw [if_pos hj, hj]
      exact iff_of_true (.inr List.mem_cons_self) rfl
    · rw [if_neg hj]
      exact or_iff_left fun hmem => hj (List.mem_singleton.mp hmem)
  · rw [hfinished, List.nodup_append]
    refine ⟨h.finishedOnce, List.nodup_singleton _, fun a ha b hb hab => hopen ?_⟩
    rwa [hab, List.mem_singleton.mp hb] at ha

theorem Ordered.turn (h : Ordered calls s) (hturn : Turn calls s i s') : Ordered calls s' := by
  cases hturn with
  | begin w hw hphase => exact h.begin hw hphase
  | write w stamp col f hw hphase hcol hturn => exact h.write hw hphase hcol hturn
  | finish w stamp col hw hphase hend => exact h.finish hw hphase hend
  | rest hnone => exact h

end Turns

/-! ### The calls one after the other -/

/-- The store after the calls that have begun, made one after the other in that order. -/
def alone (calls : List Write) (s₀ : DeltaStore) (s : Concurrent) : DeltaStore :=
  s₀.run (s.drawn.filterMap fun e => calls[e.1]?)

/-- The pending rows after calls that returned in this order. -/
def countedAll (calls : List Write) (pendingRows : UInt64) (order : List Nat) : UInt64 :=
  order.foldl (fun n i => match calls[i]? with | some w => w.counted n | none => n) pendingRows

theorem countedAll_concat (pendingRows : UInt64) (order : List Nat) {w : Write} (hw : calls[i]? = some w) :
    countedAll calls pendingRows (order ++ [i]) = w.counted (countedAll calls pendingRows order) := by
  unfold countedAll
  rw [List.foldl_append, List.foldl_cons, List.foldl_nil, hw]

/-- The timestamps drawn are those of the calls one after the other. -/
structure Drew (calls : List Write) (s₀ : DeltaStore) (s : Concurrent) : Prop where
  clock : s.store.globalTimestamp = (alone calls s₀ s).globalTimestamp
  threshold : s.store.flushThreshold = (alone calls s₀ s).flushThreshold
  flushing : s.store.flushing = (alone calls s₀ s).flushing
  pending : s.store.pendingRows = countedAll calls s₀.pendingRows s.finished
  pendingAlone : (alone calls s₀ s).pendingRows = countedAll calls s₀.pendingRows (s.drawn.map Prod.fst)
  length : (alone calls s₀ s).columns.length = s₀.columns.length
  columns : ∀ (col : Nat) (d : ColumnDelta), s₀.columns[col]? = some d →
    (alone calls s₀ s).columns[col]? = some (applied calls col d s.drawn)

theorem drew_start (calls : List Write) (s₀ : DeltaStore) : Drew calls s₀ (start s₀ calls) :=
  ⟨rfl, rfl, rfl, rfl, rfl, rfl, fun _ _ hd => hd⟩

theorem Drew.turn (h : Drew calls s₀ s) (hturn : Turn calls s i s') : Drew calls s₀ s' := by
  cases hturn with
  | rest hnone => exact h
  | write w stamp col f hw hphase hcol hturn =>
    exact ⟨h.clock, h.threshold, h.flushing, h.pending, h.pendingAlone, h.length, h.columns⟩
  | finish w stamp col hw hphase hend =>
    refine ⟨h.clock, h.threshold, h.flushing, ?_, h.pendingAlone, h.length, h.columns⟩
    show w.counted s.store.pendingRows = countedAll calls s₀.pendingRows (s.finished ++ [i])
    rw [countedAll_concat _ _ hw, h.pending]
  | begin w hw hphase =>
    have hdraw : w.draw s.store = w.draw (alone calls s₀ s) := by
      cases w <;> simp only [Write.draw, DeltaStore.stamp, DeltaStore.clock, h.clock]
    have halone : alone calls s₀ (s.begin i w) = w.apply (alone calls s₀ s) := by
      show s₀.run ((s.drawn ++ [(i, (w.draw s.store).1)]).filterMap fun e => calls[e.1]?) = _
      rw [List.filterMap_append, DeltaStore.run_append, ← alone]
      show (alone calls s₀ s).run ((calls[i]?).toList) = _
      rw [hw]
      rfl
    have hkept : (w.apply (alone calls s₀ s)).flushThreshold = (alone calls s₀ s).flushThreshold ∧
        (w.apply (alone calls s₀ s)).flushing = (alone calls s₀ s).flushing ∧
        (w.apply (alone calls s₀ s)).columns.length = (alone calls s₀ s).columns.length := by
      cases w <;> simp [Write.apply, DeltaStore.insert, DeltaStore.delete, DeltaStore.clear]
    obtain ⟨hthreshold, hflushing, hlength⟩ := hkept
    refine ⟨?_, ?_, ?_, h.pending, ?_, ?_, fun col d hd => ?_⟩
    · rw [halone, Write.globalTimestamp_apply, ← hdraw]
      rfl
    · rw [halone, hthreshold]
      exact h.threshold
    · rw [halone, hflushing]
      exact h.flushing
    · show _ = countedAll calls s₀.pendingRows ((s.drawn ++ [(i, (w.draw s.store).1)]).map Prod.fst)
      rw [halone, Write.pendingRows_apply, h.pendingAlone, List.map_append, List.map_singleton,
        countedAll_concat _ _ hw]
    · rw [halone, hlength, h.length]
    · show _ = some (applied calls col d (s.drawn ++ [(i, (w.draw s.store).1)]))
      rw [halone, Write.getElem?_apply, h.columns col d hd, applied_concat col d _ _ hw, ← hdraw]
      rfl

end Concurrent

/-! ### What readers see of a column -/

/-- The entry of every row in the two maps. -/
abbrev ColumnView := (RowId → Option (Timestamp × Bytes)) × (RowId → Option Timestamp)

def ColumnDelta.view (d : ColumnDelta) : ColumnView := (fun r => d.inserts[r]?, fun r => d.deletes[r]?)

/-- Two calls that leave a column otherwise when they come to it in the other order. -/
def Write.Clashes : Write → Write → Prop
  | .insert r _ _, .insert r' _ _ => r = r'
  | .delete r _, .delete r' _ => r = r'
  | .insert .., .delete .. => False
  | .delete .., .insert .. => False
  | .clear, .clear => False
  | _, _ => True

instance : DecidableRel Write.Clashes
  | .insert r _ _, .insert r' _ _ => inferInstanceAs (Decidable (r = r'))
  | .delete r _, .delete r' _ => inferInstanceAs (Decidable (r = r'))
  | .insert .., .delete .. => inferInstanceAs (Decidable False)
  | .delete .., .insert .. => inferInstanceAs (Decidable False)
  | .clear, .clear => inferInstanceAs (Decidable False)
  | .clear, .insert .. => inferInstanceAs (Decidable True)
  | .clear, .delete .. => inferInstanceAs (Decidable True)
  | .insert .., .clear => inferInstanceAs (Decidable True)
  | .delete .., .clear => inferInstanceAs (Decidable True)

namespace Write

theorem clashes_comm {w w' : Write} : w.Clashes w' ↔ w'.Clashes w := by
  cases w <;> cases w' <;> simp only [Clashes] <;> exact eq_comm

/-- What a call does to what is seen. -/
def viewEffect (stamp : Timestamp) (col : Nat) (w : Write) (v : ColumnView) : ColumnView :=
  match w with
  | insert rowId columnData _ =>
    match columnData[col]? with
    | some data => (Function.update v.1 rowId (some (stamp, data)), v.2)
    | none => v
  | delete rowId _ => (v.1, Function.update v.2 rowId (some stamp))
  | clear => (fun _ => none, fun _ => none)

theorem view_effect (stamp : Timestamp) (col : Nat) (w : Write) (d : ColumnDelta) :
    (w.effect stamp col d).view = w.viewEffect stamp col d.view := by
  cases w with
  | insert rowId columnData timestamp =>
    cases hdata : columnData[col]? with
    | none => simp [effect, turn, viewEffect, hdata]
    | some data =>
      simp only [effect, turn, viewEffect, hdata, Option.map_some]
      refine Prod.ext ?_ rfl
      funext r
      show (d.insert rowId stamp data).inserts[r]? = Function.update d.view.1 rowId (some (stamp, data)) r
      rw [ColumnDelta.inserts_insert, Function.update_apply]
      by_cases hr : rowId = r
      · rw [if_pos hr, if_pos hr.symm]
      · rw [if_neg hr, if_neg (Ne.symm hr)]
        rfl
  | delete rowId timestamp =>
    refine Prod.ext rfl ?_
    funext r
    show (d.delete rowId stamp).deletes[r]? = Function.update d.view.2 rowId (some stamp) r
    rw [ColumnDelta.deletes_delete, Function.update_apply]
    by_cases hr : rowId = r
    · rw [if_pos hr, if_pos hr.symm]
    · rw [if_neg hr, if_neg (Ne.symm hr)]
      rfl
  | clear =>
    refine Prod.ext ?_ ?_
    · funext r
      exact Std.TreeMap.getElem?_emptyc
    · funext r
      exact Std.TreeMap.getElem?_emptyc

/-- Calls that do not clash may come in either order. -/
theorem viewEffect_comm {w w' : Write} (h : ¬ w.Clashes w') (stamp stamp' : Timestamp) (col : Nat) (v : ColumnView) :
    w'.viewEffect stamp' col (w.viewEffect stamp col v) = w.viewEffect stamp col (w'.viewEffect stamp' col v) := by
  cases w with
  | insert r data t =>
    cases w' with
    | insert r' data' t' =>
      have hne : r ≠ r' := h
      simp only [viewEffect]
      cases data[col]? <;> cases data'[col]? <;> simp [Function.update_comm hne]
    | delete r' t' =>
      simp only [viewEffect]
      cases data[col]? <;> rfl
    | clear => exact absurd trivial h
  | delete r t =>
    cases w' with
    | insert r' data' t' =>
      simp only [viewEffect]
      cases data'[col]? <;> rfl
    | delete r' t' =>
      have hne : r ≠ r' := h
      simp only [viewEffect, Function.update_comm hne]
    | clear => exact absurd trivial h
  | clear =>
    cases w' with
    | clear => rfl
    | _ => exact absurd trivial h

theorem counted_comm {w w' : Write} (h : ¬ w.Clashes w') (n : UInt64) :
    w'.counted (w.counted n) = w.counted (w'.counted n) := by
  cases w <;> cases w' <;> first | rfl | exact absurd trivial h

end Write

/-- Two stores that no reader can tell apart. -/
structure DeltaStore.ReadsAs (s s' : DeltaStore) : Prop where
  get : ∀ col rowId, s.get col rowId = s'.get col rowId
  getRange : ∀ col startRow endRow out, s.getRange col startRow endRow out = s'.getRange col startRow endRow out
  visitInserts : ∀ col, s.visitInserts col = s'.visitInserts col
  visitDeletes : ∀ col, s.visitDeletes col = s'.visitDeletes col
  memoryUsage : s.memoryUsage = s'.memoryUsage
  pendingRows : s.pendingRows = s'.pendingRows
  shouldFlush : s.shouldFlush = s'.shouldFlush
  globalTimestamp : s.globalTimestamp = s'.globalTimestamp
  flushing : s.flushing = s'.flushing

/-- What is read is what is seen. -/
theorem DeltaStore.readsAs_of_view {s s' : DeltaStore} (hlen : s.columns.length = s'.columns.length)
    (hview : ∀ (col : Nat) (d d' : ColumnDelta), s.columns[col]? = some d → s'.columns[col]? = some d' →
      d.view = d'.view)
    (hpending : s.pendingRows = s'.pendingRows) (hthreshold : s.flushThreshold = s'.flushThreshold)
    (hclock : s.globalTimestamp = s'.globalTimestamp) (hflushing : s.flushing = s'.flushing) : s.ReadsAs s' := by
  have hcolumn : ∀ col : Nat, (s.columns[col]? = none ∧ s'.columns[col]? = none) ∨
      ∃ d d' : ColumnDelta, s.columns[col]? = some d ∧ s'.columns[col]? = some d' ∧
      d.inserts.toList = d'.inserts.toList ∧ d.deletes.toList = d'.deletes.toList ∧ d.deletes.size = d'.deletes.size ∧
      (∀ r : RowId, d.inserts[r]? = d'.inserts[r]?) ∧ ∀ r : RowId, d.deletes[r]? = d'.deletes[r]? := by
    intro col
    by_cases hcol : col < s.columns.length
    · obtain ⟨d, hd⟩ : ∃ d, s.columns[col]? = some d := ⟨_, List.getElem?_eq_getElem hcol⟩
      obtain ⟨d', hd'⟩ : ∃ d', s'.columns[col]? = some d' := ⟨_, List.getElem?_eq_getElem (hlen ▸ hcol)⟩
      have hsame := hview col d d' hd hd'
      have hinserts : ∀ r : RowId, d.inserts[r]? = d'.inserts[r]? := fun r => congrFun (congrArg Prod.fst hsame) r
      have hdeletes : ∀ r : RowId, d.deletes[r]? = d'.deletes[r]? := fun r => congrFun (congrArg Prod.snd hsame) r
      have hdeleted := Std.TreeMap.Equiv.of_forall_constGet?_eq hdeletes
      exact .inr ⟨_, _, hd, hd', (Std.TreeMap.Equiv.of_forall_constGet?_eq hinserts).toList_eq, hdeleted.toList_eq,
        hdeleted.size_eq, hinserts, hdeletes⟩
    · exact .inl ⟨List.getElem?_eq_none (not_lt.mp hcol), List.getElem?_eq_none (hlen ▸ not_lt.mp hcol)⟩
  have hlive : ∀ d d' : ColumnDelta, (∀ r : RowId, d.deletes[r]? = d'.deletes[r]?) →
      ∀ r t, d.live r t = d'.live r t := by
    intro d d' hdeletes r t
    unfold ColumnDelta.live
    rw [hdeletes r]
  refine ⟨fun col r => ?_, fun col a b out => ?_, fun col => ?_, fun col => ?_, ?_, hpending, ?_, hclock, hflushing⟩
  · unfold DeltaStore.get
    rcases hcolumn col with ⟨hd, hd'⟩ | ⟨d, d', hd, hd', -, -, -, hinserts, hdeletes⟩
    · rw [hd, hd']
    · rw [hd, hd']
      have hmem : r ∈ d.deletes ↔ r ∈ d'.deletes := by
        rw [Std.TreeMap.mem_iff_isSome_getElem?, Std.TreeMap.mem_iff_isSome_getElem?, hdeletes r]
      simp only [hmem, hinserts r]
  · unfold DeltaStore.getRange
    rcases hcolumn col with ⟨hd, hd'⟩ | ⟨d, d', hd, hd', hinserts, -, -, -, hdeletes⟩
    · rw [hd, hd']
    · rw [hd, hd']
      simp only [hinserts, hlive d d' hdeletes]
  · unfold DeltaStore.visitInserts
    rcases hcolumn col with ⟨hd, hd'⟩ | ⟨d, d', hd, hd', hinserts, -⟩
    · rw [hd, hd']
    · rw [hd, hd']
      exact hinserts
  · unfold DeltaStore.visitDeletes
    rcases hcolumn col with ⟨hd, hd'⟩ | ⟨d, d', hd, hd', -, hdeletes, -⟩
    · rw [hd, hd']
    · rw [hd, hd']
      exact hdeletes
  · unfold DeltaStore.memoryUsage
    congr 1
    refine List.ext_getElem? fun col => ?_
    rw [List.getElem?_map, List.getElem?_map]
    rcases hcolumn col with ⟨hd, hd'⟩ | ⟨d, d', hd, hd', hinserts, -, hsize, -⟩
    · rw [hd, hd']
    · rw [hd, hd', Option.map_some, Option.map_some, ColumnDelta.memoryUsage, ColumnDelta.memoryUsage, hinserts, hsize]
  · unfold DeltaStore.shouldFlush
    rw [hpending, hthreshold]

/-! ### Any number of calls -/

namespace Concurrent
variable {calls : List Write} {s₀ : DeltaStore} {s s' : Concurrent} {i : Nat}

/-- Calls that do not clash leave a column the same in any order. -/
theorem view_applied_perm (hclash : calls.Pairwise fun w w' => ¬ w.Clashes w') (col : Nat) (d : ColumnDelta)
    {a b : List (Nat × Timestamp)} (hperm : a.Perm b) (honce : (a.map Prod.fst).Nodup) :
    (applied calls col d a).view = (applied calls col d b).view := by
  have hview : ∀ (l : List (Nat × Timestamp)) (d : ColumnDelta), (applied calls col d l).view =
      l.foldl (fun v e => match calls[e.1]? with | some w => w.viewEffect e.2 col v | none => v) d.view := by
    intro l
    induction l with
    | nil => exact fun _ => rfl
    | cons e rest ih =>
      intro d
      rw [List.foldl_cons]
      refine (ih _).trans ?_
      dsimp only
      cases calls[e.1]? with
      | none => rfl
      | some w =>
        dsimp only
        rw [Write.view_effect]
  rw [hview, hview]
  refine hperm.foldl_eq' (fun x hx y hy v => ?_) d.view
  by_cases hxy : x = y
  · rw [hxy]
  have hne : x.1 ≠ y.1 := fun h => hxy (List.inj_on_of_nodup_map honce hx hy h)
  cases hw : calls[x.1]? with
  | none => rfl
  | some w =>
    cases hw' : calls[y.1]? with
    | none => rfl
    | some w' => exact Write.viewEffect_comm (not_clashes hclash hw hw' hne) _ _ _ _
where
  not_clashes {calls : List Write} (hclash : calls.Pairwise fun w w' => ¬ w.Clashes w') {w w' : Write} {j k : Nat}
      (hw : calls[j]? = some w) (hw' : calls[k]? = some w') (hne : j ≠ k) : ¬ w.Clashes w' := by
    obtain ⟨hj, rfl⟩ := List.getElem?_eq_some_iff.mp hw
    obtain ⟨hk, rfl⟩ := List.getElem?_eq_some_iff.mp hw'
    rcases Nat.lt_or_gt_of_ne hne with hlt | hlt
    · exact List.pairwise_iff_getElem.mp hclash j k hj hk hlt
    · rw [Write.clashes_comm]
      exact List.pairwise_iff_getElem.mp hclash k j hk hj hlt

theorem countedAll_perm (hclash : calls.Pairwise fun w w' => ¬ w.Clashes w') (n : UInt64) {a b : List Nat}
    (hperm : a.Perm b) : countedAll calls n a = countedAll calls n b := by
  refine hperm.foldl_eq' (fun x _ y _ n => ?_) n
  by_cases hxy : x = y
  · rw [hxy]
  cases hw : calls[x]? with
  | none => rfl
  | some w =>
    cases hw' : calls[y]? with
    | none => rfl
    | some w' => exact Write.counted_comm (view_applied_perm.not_clashes hclash hw hw' hxy) _

/-- Calls that do not come to the column leave it as it is. -/
theorem applied_filter (col : Nat) (d : ColumnDelta) (l : List (Nat × Timestamp)) {keep : Nat × Timestamp → Bool}
    (hkeep : ∀ e ∈ l, keep e = false → ∀ w, calls[e.1]? = some w → w.touches col = false) :
    applied calls col d (l.filter keep) = applied calls col d l := by
  induction l generalizing d with
  | nil => rfl
  | cons e rest ih =>
    have hrest := fun d => ih d fun e' he' => hkeep e' (List.mem_cons_of_mem _ he')
    cases he : keep e with
    | true =>
      rw [List.filter_cons_of_pos he]
      exact hrest _
    | false =>
      rw [List.filter_cons_of_neg (by rw [he]; exact Bool.false_ne_true), hrest]
      have hsame : (match calls[e.1]? with | some w => w.effect e.2 col d | none => d) = d := by
        cases hw : calls[e.1]? with
        | none => rfl
        | some w =>
          have hout := hkeep e List.mem_cons_self he w hw
          rw [← Write.isSome_turn e.2, Option.isSome_eq_false_iff, Option.isNone_iff_eq_none] at hout
          simp only [Write.effect, hout]
      show applied calls col d rest =
        applied calls col (match calls[e.1]? with | some w => w.effect e.2 col d | none => d) rest
      rw [hsame]

/-- What comes to a column later is not from calls that had returned. -/
def Later (s : Concurrent) (col : Nat) (s' : Concurrent) : Prop :=
  (∀ i : Nat, s.phases[i]? = some .returned → s'.phases[i]? = some .returned) ∧
    ∃ later, s'.order col = s.order col ++ later ∧ ∀ e ∈ later, s.phases[e.1]? ≠ some .returned

theorem Later.turn {s₁ s₂ : Concurrent} {col : Nat} (h : Later s col s₁) (hturn : Turn calls s₁ i s₂) :
    Later s col s₂ := by
  obtain ⟨hreturned, later, horder, hopen⟩ := h
  have hmoved : ∀ phase old : CallPhase, s₁.phases[i]? = some old → old ≠ .returned → ∀ j : Nat,
      s.phases[j]? = some .returned → (s₁.phases.set i phase)[j]? = some .returned := by
    intro phase old hold hne j hj
    have hji : j ≠ i := by
      rintro rfl
      exact hne (Option.some.inj (hold.symm.trans (hreturned j hj)))
    rw [getElem?_set_moved hold, if_neg hji]
    exact hreturned j hj
  cases hturn with
  | rest hnone => exact ⟨hreturned, later, horder, hopen⟩
  | begin w hw hphase => exact ⟨hmoved _ _ hphase (by simp), later, horder, hopen⟩
  | finish w stamp c hw hphase hend => exact ⟨hmoved _ _ hphase (by simp), later, horder, hopen⟩
  | write w stamp c f hw hphase hcol hturn =>
    refine ⟨hmoved _ _ hphase (by simp), later ++ (if c = col then [(i, stamp)] else []), ?_, fun e he => ?_⟩
    · rw [order_concat rfl c stamp rfl col, horder, List.append_assoc]
    · rcases List.mem_append.mp he with he | he
      · exact hopen e he
      · split at he
        · rw [List.mem_singleton.mp he]
          intro hdone
          cases (hreturned i hdone).symm.trans hphase
        · exact absurd he List.not_mem_nil

/-- **In every state of a run each column is what the calls that have come to it leave, one
after the other in the order they came: each came once, after it began, and none that had
returned before comes later. A call that has returned has come to every column it has
data for.** -/
theorem columns_linearized (s₀ : DeltaStore) (calls : List Write) (before after : List Nat) :
    let s := (start s₀ calls).run calls before
    let s' := (start s₀ calls).run calls (before ++ after)
    ∀ (col : Nat) (d : ColumnDelta), s₀.columns[col]? = some d →
      s'.store.columns[col]? = some (applied calls col d (s'.order col)) ∧
      ((s'.order col).map Prod.fst).Nodup ∧
      (∀ e ∈ s'.order col, e ∈ s'.drawn) ∧
      (∀ i w, s'.phases[i]? = some .returned → calls[i]? = some w → w.touches col = true →
        i ∈ (s'.order col).map Prod.fst) ∧
      ∃ later, s'.order col = s.order col ++ later ∧ ∀ e ∈ later, s.phases[e.1]? ≠ some .returned := by
  intro s s' col d hd
  have hcolumns : Columns calls s₀ s' := run_keeps (fun _ _ _ h => h.turn) (columns_start calls s₀) _
  have hordered : Ordered calls s' := run_keeps (fun _ _ _ h => h.turn) (ordered_start calls s₀) _
  have hbefore : Ordered calls s := run_keeps (fun _ _ _ h => h.turn) (ordered_start calls s₀) _
  refine ⟨hcolumns.applied col d hd, hordered.writtenOnce col, fun e he => ((hordered.written col e).mp he).1,
    fun i w hphase hw htouch => ?_, ?_⟩
  · obtain ⟨e, he, rfl⟩ := List.mem_map.mp ((hordered.begun i).mpr ⟨_, hphase, by simp⟩)
    refine List.mem_map_of_mem ((hordered.written col e).mpr ⟨he, ?_⟩)
    unfold Written
    rw [hphase]
    refine ⟨?_, w, hw, htouch⟩
    rw [hcolumns.length]
    exact (List.getElem?_eq_some_iff.mp hd).1
  · have hrun : s' = s.run calls after := run_append ..
    rw [hrun]
    exact (run_keeps (fun _ _ _ h => Later.turn h)
      ⟨fun _ h => h, [], (List.append_nil _).symm, fun _ h => absurd h List.not_mem_nil⟩ after : Later s col _).2

/-- Two inserts of one row that come to its two columns in different orders. -/
theorem crossing_linearized : ∃ d, ((start (DeltaStore.new 2) [.insert 7 [[1], [2]] 0, .insert 7 [[3], [4]] 0]).run
      [.insert 7 [[1], [2]] 0, .insert 7 [[3], [4]] 0] ([0, 1, 0, 1] ++ [1, 0])).store.columns[1]? = some d ∧
    d = applied [.insert 7 [[1], [2]] 0, .insert 7 [[3], [4]] 0] 1 {} [(1, 2), (0, 1)] := by
  exact ⟨_, (columns_linearized (DeltaStore.new 2) [.insert 7 [[1], [2]] 0, .insert 7 [[3], [4]] 0] [0, 1, 0, 1] [1, 0]
    1 {} rfl).1, rfl⟩

/-- **If no two inserts and no two deletes among calls made at once are for the same row,
and `Clear` is not called beside others, then when all have returned no reader can tell the
store from one on which they were made one after the other, in the order in which they
drew their timestamps.** -/
theorem concurrent_serializable (s₀ : DeltaStore) (calls : List Write)
    (hclash : calls.Pairwise fun w w' => ¬ w.Clashes w') (schedule : List Nat)
    (hdone : ((start s₀ calls).run calls schedule).AllReturned) :
    let s := (start s₀ calls).run calls schedule
    (s.drawn.map Prod.fst).Perm (List.range calls.length) ∧ s.store.ReadsAs (alone calls s₀ s) := by
  have hcolumns : Columns calls s₀ ((start s₀ calls).run calls schedule) :=
    run_keeps (fun _ _ _ h => h.turn) (columns_start calls s₀) _
  have hordered : Ordered calls ((start s₀ calls).run calls schedule) :=
    run_keeps (fun _ _ _ h => h.turn) (ordered_start calls s₀) _
  have hdrew : Drew calls s₀ ((start s₀ calls).run calls schedule) :=
    run_keeps (fun _ _ _ h => h.turn) (drew_start calls s₀) _
  intro s
  change s.AllReturned at hdone
  change Columns calls s₀ s at hcolumns
  change Ordered calls s at hordered
  change Drew calls s₀ s at hdrew
  clear_value s
  have hphase : ∀ i < calls.length, s.phases[i]? = some .returned := by
    intro i hi
    have hin : i < s.phases.length := hordered.phases ▸ hi
    rw [List.getElem?_eq_getElem hin, hdone _ (List.getElem_mem hin)]
  have hlt : ∀ i phase, s.phases[i]? = some phase → i < calls.length := fun i phase h =>
    hordered.phases ▸ (List.getElem?_eq_some_iff.mp h).1
  have hdrawn : (s.drawn.map Prod.fst).Perm (List.range calls.length) := by
    refine (List.perm_ext_iff_of_nodup hordered.drawnOnce List.nodup_range).mpr fun i => ?_
    rw [hordered.begun i, List.mem_range]
    constructor
    · intro h
      obtain ⟨phase, hi, -⟩ := h
      exact hlt i phase hi
    · exact fun hi => ⟨_, hphase i hi, by simp⟩
  have hfinished : s.finished.Perm (s.drawn.map Prod.fst) := by
    refine (List.perm_ext_iff_of_nodup hordered.finishedOnce hordered.drawnOnce).mpr fun i => ?_
    rw [hordered.finished i, hdrawn.mem_iff, List.mem_range]
    exact ⟨hlt i _, hphase i⟩
  refine ⟨hdrawn, ?_⟩
  have hview : ∀ (col : Nat) (d d' : ColumnDelta), s.store.columns[col]? = some d →
      (alone calls s₀ s).columns[col]? = some d' → d.view = d'.view := by
    intro col d d' hd hd'
    have hcol : col < s₀.columns.length := hcolumns.length ▸ (List.getElem?_eq_some_iff.mp hd).1
    have hstart := List.getElem?_eq_getElem hcol
    cases hd.symm.trans (hcolumns.applied col _ hstart)
    cases hd'.symm.trans (hdrew.columns col _ hstart)
    have htouch : (s.order col).Perm (s.drawn.filter fun e => (calls[e.1]?).any (Write.touches col)) := by
      refine (List.perm_ext_iff_of_nodup (List.Nodup.of_map _ (hordered.writtenOnce col))
        ((List.Nodup.of_map _ hordered.drawnOnce).filter _)).mpr fun e => ?_
      rw [hordered.written col e, List.mem_filter]
      refine and_congr_right fun he => ?_
      have hin : e.1 < calls.length := List.mem_range.mp (hdrawn.mem_iff.mp (List.mem_map_of_mem he))
      unfold Written
      rw [hphase e.1 hin, hcolumns.length, List.getElem?_eq_getElem hin]
      simp [hcol]
    rw [view_applied_perm hclash col _ htouch (hordered.writtenOnce col), applied_filter col _ s.drawn]
    intro e _ hout w hw
    rw [hw] at hout
    exact hout
  refine DeltaStore.readsAs_of_view (hcolumns.length.trans hdrew.length.symm) hview ?_ hdrew.threshold hdrew.clock
    hdrew.flushing
  show s.store.pendingRows = (alone calls s₀ s).pendingRows
  rw [hdrew.pending, hdrew.pendingAlone]
  exact countedAll_perm hclash _ hfinished

/-- Two inserts and a delete of one of their rows, in turn. -/
theorem mixed_serializable :
    let s := (start (DeltaStore.new 2) [.insert 1 [[1], [10]] 0, .delete 1 0, .insert 2 [[2], [20]] 0]).run
      [.insert 1 [[1], [10]] 0, .delete 1 0, .insert 2 [[2], [20]] 0] [0, 1, 2, 1, 0, 1, 2, 0, 0, 2, 2, 1]
    (s.drawn.map Prod.fst).Perm (List.range 3) ∧
      s.store.ReadsAs (alone [.insert 1 [[1], [10]] 0, .delete 1 0, .insert 2 [[2], [20]] 0] (DeltaStore.new 2) s) :=
  concurrent_serializable (DeltaStore.new 2) [.insert 1 [[1], [10]] 0, .delete 1 0, .insert 2 [[2], [20]] 0]
    (by decide) [0, 1, 2, 1, 0, 1, 2, 0, 0, 2, 2, 1] (by decide +kernel)

end Concurrent

end ColumnarStore.Delta
