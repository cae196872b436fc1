import ColumnarStore.Merger.Queue

/-! The order of merge tasks.

The queue gives tasks out in the order they were submitted in, but workers take different
times over them. At every moment the queue is the tasks from some one on, no more tasks
are in between than there are workers, and a promise that is fulfilled overtakes fewer
tasks than there are workers (`bounded_overtaking`): a single worker fulfils them in order.
This holds of every run, also when the last worker leaves tasks behind. -/
namespace ColumnarStore.Merger
open Foundation

namespace QueueState

def run (s : QueueState) (events : List QueueEvent) : QueueState := events.foldl step s

/-- The tasks that workers have taken from the queue. -/
def taken (s : QueueState) : Nat := s.tasks.length - s.queue.length

/-- Tasks before the given one whose promise was not among the first `i`. -/
def overtaken (s : QueueState) (i task : Nat) : Finset Nat :=
  (Finset.range task).filter fun j => j ∉ (s.promises.take i).map Prod.fst

/-! ### Accounting without a last worker -/

/-- One more worker, which never moves. -/
def watched (s : QueueState) : QueueState := {s with workers := s.workers ++ [.atGuard]}

theorem watched_stepWorker (s : QueueState) {w : Nat} (hw : w < s.workers.length) (worker : Worker) :
    (s.stepWorker w worker).watched = s.watched.stepWorker w worker := by
  have hset : ∀ next, (s.workers ++ [Worker.atGuard]).set w next = s.workers.set w next ++ [.atGuard] := fun next =>
    List.set_append_left w next hw
  cases worker with
  | atGuard =>
    simp only [stepWorker, watched, hset]
    rfl
  | atWait =>
    cases hqueue : s.queue with
    | nil => cases hstopped : s.stopped <;> simp [stepWorker, watched, hqueue, hstopped, hset]
    | cons task rest => simp only [stepWorker, watched, hqueue, hset]
  | executing task =>
    simp only [stepWorker, watched]
    split
    · rw [hset]
    · rfl
  | fulfilling task result => simp only [stepWorker, watched, hset]
  | exited => rfl

/-- All that is known of a state but that nothing is left behind. -/
def Tracked (n : Nat) (s : QueueState) : Prop := Queued (n + 1) s.watched

theorem tracked_start (n : Nat) : Tracked n (start n) := by
  have h := queued_start (n + 1)
  rwa [start, List.replicate_succ'] at h

theorem Tracked.length {n : Nat} {s : QueueState} (h : Tracked n s) : s.workers.length = n := by
  have hlen := h.workers
  rw [watched, List.length_append, List.length_singleton] at hlen
  omega

/-- The worker that never moves is never the last to leave. -/
theorem watched_leavesNone (s : QueueState) (event : QueueEvent)
    (hevent : ∀ w, event = .worker w → w < s.workers.length) : s.watched.LeavesNone event := by
  cases event with
  | submit task => trivial
  | stop => trivial
  | worker w =>
    intro _ _ hothers
    have hlast : s.watched.workers[s.workers.length]? = some .atGuard := by simp [watched]
    cases hothers _ _ (hevent w rfl).ne' hlast

theorem Tracked.step {n : Nat} {s : QueueState} (h : Tracked n s) (event : QueueEvent) : Tracked n (s.step event) := by
  have hmoves : (∀ w, event = .worker w → w < s.workers.length) → (s.step event).watched = s.watched.step event →
      Tracked n (s.step event) := by
    intro hevent hwatched
    unfold Tracked
    rw [hwatched]
    exact Queued.step (Nat.succ_pos n) h (s.watched_leavesNone event hevent)
  cases event with
  | submit task =>
    refine hmoves (fun w hw => by cases hw) ?_
    cases hstopped : s.stopped <;> simp [QueueState.step, watched, hstopped]
  | stop => exact hmoves (fun w hw => by cases hw) rfl
  | worker w =>
    by_cases hw : w < s.workers.length
    · refine hmoves (fun v hv => by cases hv; exact hw) ?_
      have hget : s.watched.workers[w]? = s.workers[w]? := List.getElem?_append_left hw
      simp only [QueueState.step, hget, List.getElem?_eq_getElem hw]
      exact s.watched_stepWorker hw _
    · rw [QueueState.step, List.getElem?_eq_none (not_lt.mp hw)]
      exact h

/-- What is taken and not yet fulfilled is with the workers. -/
theorem Tracked.fulfilled {n : Nat} {s : QueueState} (h : Tracked n s) :
    (s.queue : Multiset Nat) + ((s.workers.map Worker.owes).sum).2 + (s.promises.map Prod.fst : Multiset Nat) =
      (List.range s.tasks.length : Multiset Nat) := by
  have hall := congrArg Prod.snd h.accounted
  have hsum : (s.watched.workers.map Worker.owes).sum = (s.workers.map Worker.owes).sum := by
    rw [watched, List.map_append, List.sum_append]
    show _ + (0 + 0) = _
    rw [add_zero, add_zero]
  rw [QueueState.accounted, hsum] at hall
  exact hall

/-- A worker owes at most one promise. -/
theorem card_owes_le (workers : List Worker) : ((workers.map Worker.owes).sum).2.card ≤ workers.length := by
  induction workers with
  | nil => rfl
  | cons worker rest ih =>
    rw [List.map_cons, List.sum_cons, List.length_cons]
    have hone : worker.owes.2.card ≤ 1 := by cases worker <;> simp [Worker.owes]
    show (worker.owes.2 + ((rest.map Worker.owes).sum).2).card ≤ _
    rw [Multiset.card_add]
    omega

/-! ### First come, first taken -/

structure InOrder (n : Nat) (s : QueueState) : Prop where
  tracked : Tracked n s
  waiting : s.queue.length ≤ s.tasks.length
  queue : s.queue = List.range' s.taken s.queue.length
  overtaken : ∀ i p, s.promises[i]? = some p → (s.overtaken i p.1).card < n

theorem inOrder_start (n : Nat) : InOrder n (start n) :=
  ⟨tracked_start n, le_rfl, rfl, fun _ _ h => by cases h⟩

/-- Nothing that is known of the order changes. -/
theorem InOrder.keep {n : Nat} {s s' : QueueState} (h : InOrder n s) (htracked : Tracked n s')
    (htasks : s'.tasks = s.tasks) (hqueue : s'.queue = s.queue) (hpromises : s'.promises = s.promises) :
    InOrder n s' := by
  refine ⟨htracked, ?_, ?_, ?_⟩
  · rw [hqueue, htasks]
    exact h.waiting
  · rw [taken, hqueue, htasks]
    exact h.queue
  · unfold QueueState.overtaken
    rw [hpromises]
    exact h.overtaken

theorem Tracked.nodup {n : Nat} {s : QueueState} (h : Tracked n s) :
    ((s.queue : Multiset Nat) + ((s.workers.map Worker.owes).sum).2 +
      (s.promises.map Prod.fst : Multiset Nat)).Nodup := by
  rw [h.fulfilled]
  exact List.nodup_range

/-- A task that was submitted and is not in the queue was taken from it. -/
theorem InOrder.lt_taken {n : Nat} {s : QueueState} (h : InOrder n s) {task : Nat} (hout : task ∉ s.queue)
    (hmem : task ∈ ((s.queue : Multiset Nat) + ((s.workers.map Worker.owes).sum).2 +
      (s.promises.map Prod.fst : Multiset Nat))) : task < s.taken := by
  rw [h.tracked.fulfilled] at hmem
  have hrange := List.mem_range.mp hmem
  by_contra hge
  refine hout ?_
  rw [h.queue, List.mem_range'_1]
  have hwaiting := h.waiting
  unfold taken at hge ⊢
  omega

/-- So was one that a worker holds. -/
theorem InOrder.held_lt {n : Nat} {s : QueueState} (h : InOrder n s) {w task : Nat} {worker : Worker}
    (hw : s.workers[w]? = some worker) (howes : task ∈ worker.owes.2) : task < s.taken := by
  obtain ⟨rest, hsum, -⟩ := exists_sum_rest Worker.owes hw
  have hmem : task ∈ ((s.workers.map Worker.owes).sum).2 := by
    rw [hsum]
    exact Multiset.mem_add.mpr (.inl howes)
  have hdisjoint := (Multiset.nodup_add.mp (Multiset.nodup_add.mp h.tracked.nodup).1).2.2
  exact h.lt_taken (fun hq => Multiset.disjoint_left.mp hdisjoint hq hmem)
    (Multiset.mem_add.mpr (.inl (Multiset.mem_add.mpr (.inr hmem))))

/-- Of the tasks before one whose promise is fulfilled, the open ones are with the other
workers. -/
theorem InOrder.overtaken_lt {n : Nat} {s : QueueState} (h : InOrder n s) {w task : Nat} {result : Segment}
    (hw : s.workers[w]? = some (.fulfilling task result)) : (s.overtaken s.promises.length task).card < n := by
  obtain ⟨rest, hsum, hset⟩ := exists_sum_rest Worker.owes hw
  have htaken := h.held_lt hw (Multiset.mem_singleton_self task)
  have hsub : (s.overtaken s.promises.length task).val ⊆ rest.2 := by
    intro j hj
    obtain ⟨hlt, hopen⟩ := Finset.mem_filter.mp (Finset.mem_val.mp hj)
    have hlt := Finset.mem_range.mp hlt
    rw [List.take_length] at hopen
    have hmem : j ∈ (List.range s.tasks.length : Multiset Nat) := by
      have hle : s.taken ≤ s.tasks.length := Nat.sub_le _ _
      exact List.mem_range.mpr (by omega)
    rw [← h.tracked.fulfilled, hsum] at hmem
    rcases Multiset.mem_add.mp hmem with hmem | hmem
    · rcases Multiset.mem_add.mp hmem with hqueue | howed
      · rw [Multiset.mem_coe, h.queue, List.mem_range'_1] at hqueue
        omega
      · rcases Multiset.mem_add.mp howed with hself | hrest
        · rw [Multiset.mem_singleton.mp hself] at hlt
          exact absurd hlt (lt_irrefl _)
        · exact hrest
    · exact absurd hmem hopen
  -- The worker that fulfils the promise owes one, so the rest owe fewer than there are workers.
  have hrest : rest.2.card < n := by
    have hle := card_owes_le s.workers
    rw [hsum, h.tracked.length] at hle
    change (({task} : Multiset Nat) + rest.2).card ≤ n at hle
    rw [Multiset.card_add, Multiset.card_singleton] at hle
    omega
  exact (Multiset.card_le_card ((Multiset.le_iff_subset (Finset.nodup _)).mpr hsub)).trans_lt hrest

theorem InOrder.take {n : Nat} {s s' : QueueState} (h : InOrder n s) {task : Nat} {rest : List Nat}
    (hqueue : s.queue = task :: rest) (htracked : Tracked n s') (htasks : s'.tasks = s.tasks)
    (hrest : s'.queue = rest) (hpromises : s'.promises = s.promises) : InOrder n s' := by
  have hwaiting := h.waiting
  have horder := h.queue
  rw [hqueue, List.length_cons] at hwaiting
  rw [taken, hqueue, List.length_cons, List.range'_succ] at horder
  refine ⟨htracked, ?_, ?_, ?_⟩
  · rw [hrest, htasks]
    omega
  · have htaken : s'.taken = s.tasks.length - (rest.length + 1) + 1 := by
      rw [taken, hrest, htasks]
      omega
    rw [htaken, hrest]
    exact (List.cons.inj horder).2
  · unfold QueueState.overtaken
    rw [hpromises]
    exact h.overtaken

theorem InOrder.fulfil {n : Nat} {s s' : QueueState} (h : InOrder n s) {w task : Nat} {result : Segment}
    (hw : s.workers[w]? = some (.fulfilling task result)) (htracked : Tracked n s') (htasks : s'.tasks = s.tasks)
    (hqueue : s'.queue = s.queue) (hpromises : s'.promises = s.promises ++ [(task, result)]) : InOrder n s' := by
  refine ⟨htracked, ?_, ?_, fun i p hp => ?_⟩
  · rw [hqueue, htasks]
    exact h.waiting
  · rw [taken, hqueue, htasks]
    exact h.queue
  · have hbefore : ∀ i ≤ s.promises.length, ∀ j, s'.overtaken i j = s.overtaken i j := by
      intro i hi j
      rw [QueueState.overtaken, QueueState.overtaken, hpromises, List.take_append_of_le_length hi]
    rw [hpromises] at hp
    by_cases hi : i < s.promises.length
    · rw [List.getElem?_append_left hi] at hp
      rw [hbefore i hi.le]
      exact h.overtaken i p hp
    · rw [List.getElem?_append_right (not_lt.mp hi)] at hp
      obtain ⟨hlt, hpair⟩ := List.getElem?_eq_some_iff.mp hp
      have hlast : i = s.promises.length := by
        rw [List.length_singleton] at hlt
        omega
      subst hlast
      rw [← hpair, hbefore _ le_rfl]
      simpa using h.overtaken_lt hw

theorem InOrder.step {n : Nat} {s : QueueState} (h : InOrder n s) (event : QueueEvent) : InOrder n (s.step event) := by
  have htracked := h.tracked.step event
  cases event with
  | submit task =>
    rw [QueueState.step] at htracked ⊢
    split at htracked
    · next hstopped =>
      rw [if_pos hstopped]
      exact h
    · next hstopped =>
      rw [if_neg hstopped]
      have hwaiting := h.waiting
      have htaken : s.tasks.length + 1 - (s.queue.length + 1) = s.taken := Nat.add_sub_add_right ..
      refine ⟨htracked, ?_, ?_, h.overtaken⟩
      · simp only [List.length_append, List.length_singleton]
        omega
      · simp only [taken, List.length_append, List.length_singleton]
        rw [htaken, List.range'_1_concat, ← h.queue, taken, Nat.sub_add_cancel hwaiting]
  | stop => exact h.keep htracked rfl rfl rfl
  | worker w =>
    rw [QueueState.step] at htracked ⊢
    cases hw : s.workers[w]? with
    | none => exact h
    | some worker =>
      rw [hw] at htracked
      dsimp only at htracked ⊢
      cases worker with
      | atGuard => exact h.keep htracked rfl rfl rfl
      | exited => exact h
      | atWait =>
        cases hqueue : s.queue with
        | nil =>
          have hnext : (s.stepWorker w .atWait).tasks = s.tasks ∧ (s.stepWorker w .atWait).queue = s.queue ∧
              (s.stepWorker w .atWait).promises = s.promises := by
            cases hstopped : s.stopped <;> simp [stepWorker, hqueue, hstopped]
          exact h.keep htracked hnext.1 hnext.2.1 hnext.2.2
        | cons task rest =>
          have hnext : s.stepWorker w .atWait =
              {s with queue := rest, workers := s.workers.set w (.executing task)} := by
            simp [stepWorker, hqueue]
          rw [hnext] at htracked ⊢
          exact h.take hqueue htracked rfl rfl rfl
      | executing task =>
        have hnext : (s.stepWorker w (.executing task)).tasks = s.tasks ∧
            (s.stepWorker w (.executing task)).queue = s.queue ∧
            (s.stepWorker w (.executing task)).promises = s.promises := by
          simp only [stepWorker]
          split <;> simp
        exact h.keep htracked hnext.1 hnext.2.1 hnext.2.2
      | fulfilling task result => exact h.fulfil hw htracked rfl rfl rfl

theorem InOrder.run {n : Nat} {s : QueueState} (h : InOrder n s) (events : List QueueEvent) :
    InOrder n (s.run events) := by
  induction events generalizing s with
  | nil => exact h
  | cons event rest ih => exact ih (h.step event)

end QueueState

/-- A list without repetitions in which everything below an entry comes before it. -/
theorem eq_range_of_downward {l : List Nat} (hnodup : l.Nodup)
    (hdown : ∀ i a, l[i]? = some a → ∀ j < a, j ∈ l.take i) : l = List.range l.length := by
  have hprefix : ∀ i ≤ l.length, l.take i = List.range i := by
    intro i hi
    induction i with
    | zero => rfl
    | succ i ih =>
      have hlt : i < l.length := hi
      have hbefore := ih hlt.le
      have hget : l[i]? = some l[i] := List.getElem?_eq_getElem hlt
      have hle : l[i] ≤ i := by
        by_contra hgt
        have hself := hdown i l[i] hget i (not_le.mp hgt)
        rw [hbefore] at hself
        exact List.not_mem_range_self hself
      have hge : i ≤ l[i] := by
        by_contra hlt'
        have hmem : l[i] ∈ l.take i := by
          rw [hbefore]
          exact List.mem_range.mpr (not_le.mp hlt')
        obtain ⟨k, hk, hkl⟩ := List.getElem_of_mem hmem
        rw [List.length_take] at hk
        rw [List.getElem_take] at hkl
        have hki := (hnodup.getElem_inj_iff).mp hkl
        omega
      rw [List.take_succ_eq_append_getElem hlt, hbefore, List.range_succ, le_antisymm hle hge]
  rw [← hprefix l.length le_rfl, List.take_length]

open QueueState in
/-- **In every run the queue is the tasks from one on, in the order they were submitted in;
at most as many tasks as there are workers are taken and not fulfilled; and each promise
is fulfilled once, with its task's result, when fewer earlier ones than there are workers
are open.** -/
theorem bounded_overtaking (numThreads : Nat) (events : List QueueEvent) :
    let s := (start numThreads).run events
    s.queue = (List.range s.tasks.length).drop s.taken ∧
    s.taken ≤ s.promises.length + numThreads ∧
    (s.promises.map Prod.fst).Nodup ∧
    ∀ i p, s.promises[i]? = some p → p.1 < s.taken ∧ s.Result p.1 p.2 ∧ (s.overtaken i p.1).card < numThreads := by
  have h := (inOrder_start numThreads).run events
  generalize (start numThreads).run events = s at h
  have hwaiting := h.waiting
  obtain ⟨-, hpromises, hdisjoint⟩ := Multiset.nodup_add.mp h.tracked.nodup
  refine ⟨?_, ?_, hpromises, fun i p hp => ⟨?_, ?_, h.overtaken i p hp⟩⟩
  · have hlength : s.queue.length = s.tasks.length - s.taken := by
      unfold taken
      omega
    rw [List.range_eq_range', List.drop_range', ← hlength, mul_one, Nat.zero_add]
    exact h.queue
  · have hcards := congrArg Multiset.card h.tracked.fulfilled
    have howed := card_owes_le s.workers
    simp only [Multiset.card_add, Multiset.coe_card, List.length_map, List.length_range] at hcards
    rw [h.tracked.length] at howed
    unfold taken
    omega
  · have hmem : p.1 ∈ (s.promises.map Prod.fst : Multiset Nat) := List.mem_map_of_mem (List.mem_of_getElem? hp)
    refine h.lt_taken (fun hq => ?_) (Multiset.mem_add.mpr (.inr hmem))
    exact Multiset.disjoint_left.mp hdisjoint (Multiset.mem_add.mpr (.inl hq)) hmem
  · exact h.tracked.results p (List.mem_of_getElem? hp)

open QueueState in
/-- One worker fulfils the promises in the order of the tasks. -/
theorem single_worker_in_order (events : List QueueEvent) :
    ((start 1).run events).promises.map Prod.fst = List.range ((start 1).run events).promises.length := by
  obtain ⟨-, -, hnodup, hpromises⟩ := bounded_overtaking 1 events
  generalize (start 1).run events = s at hnodup hpromises
  have hrange := eq_range_of_downward hnodup fun i a ha j hj => ?_
  · rwa [List.length_map] at hrange
  · rw [List.getElem?_map] at ha
    obtain ⟨p, hp, rfl⟩ := Option.map_eq_some_iff.mp ha
    have hnone := Finset.card_eq_zero.mp (Nat.lt_one_iff.mp (hpromises i p hp).2.2)
    have hmem := Finset.filter_eq_empty_iff.mp hnone (Finset.mem_range.mpr hj)
    rw [not_not] at hmem
    rwa [← List.map_take]

end ColumnarStore.Merger
