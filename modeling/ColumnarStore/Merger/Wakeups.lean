import ColumnarStore.Merger.Overtaking

/-! Sleeping workers.

A worker that finds the queue empty sleeps on a condition variable: under the mutex it
looks at the queue and the flag, then gives up the mutex and sleeps in one step, until it
is notified. `SubmitMerge` notifies one worker after it has given up the mutex. No task is
forgotten (`no_lost_wakeup`): when nobody can go on, all promises are fulfilled. The
destructor sets the flag and notifies all without the mutex, so a worker that has looked
but does not sleep yet misses it: the workers can be joined exactly if there is none at
that moment (`joinable_iff`). No wait ends without a notification here. -/
namespace ColumnarStore.Merger
open Foundation

/-- A worker that is up, has looked and found nothing to do (and has the mutex), or sleeps. -/
inductive Wait where
  | awake
  | checked
  | asleep
  deriving DecidableEq

/-- `unnotified` counts the calls of `SubmitMerge` between push and `notify_one`. -/
structure WaitState where
  core : QueueState
  waits : List Wait
  unnotified : Nat := 0
  notified : Bool := false

/-- `notify_one` picks the worker. -/
inductive WaitEvent where
  | submit (task : MergeTask)
  | notifyOne (w : Nat)
  | stop
  | notifyAll
  | worker (w : Nat)

/-- Steps of workers and of calls that have begun. -/
def WaitEvent.Inner : WaitEvent → Prop
  | notifyOne _ | worker _ => True
  | _ => False

namespace WaitState

def start (numThreads : Nat) : WaitState :=
  {core := .start numThreads, waits := List.replicate numThreads .awake}

/-- A worker has the mutex between its look and its sleep. -/
def Locked (s : WaitState) : Prop := .checked ∈ s.waits

instance (s : WaitState) : Decidable s.Locked := inferInstanceAs (Decidable (_ ∈ _))

/-- The next step of a worker at the wait. -/
def stepWaiting (s : WaitState) (w : Nat) : Wait → WaitState
  | .awake =>
    if s.Locked then s
    else if s.core.queue = [] ∧ s.core.stopped = false then {s with waits := s.waits.set w .checked}
    else {s with core := s.core.step (.worker w)}
  | .checked => {s with waits := s.waits.set w .asleep}
  | .asleep => s

/-- Nobody may destroy a merger while somebody submits to it. -/
def step (s : WaitState) : WaitEvent → WaitState
  | .submit task =>
    if s.core.stopped ∨ s.Locked then s
    else {s with core := s.core.step (.submit task), unnotified := s.unnotified + 1}
  | .notifyOne w =>
    if s.unnotified = 0 then s
    else if s.waits[w]? = some .asleep then
      {s with waits := s.waits.set w .awake, unnotified := s.unnotified - 1}
    else if .asleep ∈ s.waits then s
    else {s with unnotified := s.unnotified - 1}
  | .stop => if s.unnotified = 0 then {s with core := s.core.step .stop} else s
  | .notifyAll =>
    if s.core.stopped ∧ s.notified = false then
      {s with waits := s.waits.map fun wait => if wait = .asleep then .awake else wait, notified := true}
    else s
  | .worker w =>
    match s.core.workers[w]?, s.waits[w]? with
    | some .atWait, some wait => s.stepWaiting w wait
    | _, _ => {s with core := s.core.step (.worker w)}

def run (s : WaitState) (events : List WaitEvent) : WaitState := events.foldl step s

/-- No worker can go on and no call of `SubmitMerge` either. -/
def Stuck (s : WaitState) : Prop := ∀ event : WaitEvent, event.Inner → s.step event = s

/-! ### What a step does -/

inductive Turn (s : WaitState) : WaitEvent → WaitState → Prop where
  | submit (task : MergeTask) (hrunning : s.core.stopped = false) (hfree : ¬ s.Locked) :
      Turn s (.submit task) {s with core := s.core.step (.submit task), unnotified := s.unnotified + 1}
  | wake (w : Nat) (hpending : 0 < s.unnotified) (hw : s.waits[w]? = some .asleep) :
      Turn s (.notifyOne w) {s with waits := s.waits.set w .awake, unnotified := s.unnotified - 1}
  | nobody (w : Nat) (hpending : 0 < s.unnotified) (hnone : Wait.asleep ∉ s.waits) :
      Turn s (.notifyOne w) {s with unnotified := s.unnotified - 1}
  | stop (hdone : s.unnotified = 0) : Turn s .stop {s with core := s.core.step .stop}
  | notifyAll (hstopped : s.core.stopped = true) (hfirst : s.notified = false) :
      Turn s .notifyAll
        {s with waits := s.waits.map fun wait => if wait = .asleep then .awake else wait, notified := true}
  | check (w : Nat) (hw : s.core.workers[w]? = some .atWait) (hwait : s.waits[w]? = some .awake) (hfree : ¬ s.Locked)
      (hempty : s.core.queue = []) (hrunning : s.core.stopped = false) :
      Turn s (.worker w) {s with waits := s.waits.set w .checked}
  | sleep (w : Nat) (hw : s.core.workers[w]? = some .atWait) (hwait : s.waits[w]? = some .checked) :
      Turn s (.worker w) {s with waits := s.waits.set w .asleep}
  | work (w : Nat) (hwait : s.core.workers[w]? = some .atWait →
      s.waits[w]? ≠ some .checked ∧ s.waits[w]? ≠ some .asleep ∧
      (s.waits[w]? = some .awake → ¬ s.Locked ∧ ¬ (s.core.queue = [] ∧ s.core.stopped = false))) :
      Turn s (.worker w) {s with core := s.core.step (.worker w)}
  | rest (event : WaitEvent) : Turn s event s

theorem turn_step (s : WaitState) (event : WaitEvent) : Turn s event (s.step event) := by
  cases event with
  | submit task =>
    rw [step]
    split
    · exact .rest _
    · next h =>
      rw [not_or, Bool.not_eq_true] at h
      exact .submit task h.1 h.2
  | notifyOne w =>
    rw [step]
    split
    · exact .rest _
    · next hpending =>
      split
      · next hw => exact .wake w (Nat.pos_of_ne_zero hpending) hw
      · split
        · exact .rest _
        · next hnone => exact .nobody w (Nat.pos_of_ne_zero hpending) hnone
  | stop =>
    rw [step]
    split
    · next hdone => exact .stop hdone
    · exact .rest _
  | notifyAll =>
    rw [step]
    split
    · next h => exact .notifyAll h.1 h.2
    · exact .rest _
  | worker w =>
    rw [step]
    split
    · next wait hw hwait =>
      cases wait with
      | awake =>
        unfold stepWaiting
        dsimp only
        split
        · exact .rest _
        · next hfree =>
          split
          · next h => exact .check w hw hwait hfree h.1 h.2
          · next h => exact .work w fun _ => ⟨by simp [hwait], by simp [hwait], fun _ => ⟨hfree, h⟩⟩
      | checked => exact .sleep w hw hwait
      | asleep => exact .rest _
    · next hother =>
      refine .work w fun hw => ⟨fun h => ?_, fun h => ?_, fun h => ?_⟩ <;> exact absurd h (hother _ hw)

/-! ### Steps of the queue below -/

theorem getElem?_step_worker (q : QueueState) {v w : Nat} (hvw : w ≠ v) :
    (q.step (.worker v)).workers[w]? = q.workers[w]? := by
  have hset : ∀ next, (q.workers.set v next)[w]? = q.workers[w]? := fun next => List.getElem?_set_ne (Ne.symm hvw)
  rw [QueueState.step]
  cases hv : q.workers[v]? with
  | none => rfl
  | some worker =>
    cases worker with
    | atGuard => exact hset _
    | atWait =>
      cases hqueue : q.queue with
      | nil =>
        cases hstopped : q.stopped <;>
          simp [QueueState.stepWorker, hqueue, hstopped, List.getElem?_set_ne (Ne.symm hvw)]
      | cons task rest => simp [QueueState.stepWorker, hqueue, List.getElem?_set_ne (Ne.symm hvw)]
    | executing task =>
      simp only [QueueState.stepWorker]
      split <;> simp [List.getElem?_set_ne (Ne.symm hvw)]
    | fulfilling task result => exact hset _
    | exited => rfl

/-- A worker submits nothing, sets no flag, and puts nothing into the queue. -/
theorem step_worker_rest (q : QueueState) (w : Nat) :
    (q.step (.worker w)).tasks = q.tasks ∧ (q.step (.worker w)).stopped = q.stopped ∧
      (q.step (.worker w)).queue.length ≤ q.queue.length := by
  rw [QueueState.step]
  cases hw : q.workers[w]? with
  | none => exact ⟨rfl, rfl, le_rfl⟩
  | some worker =>
    cases worker with
    | atGuard => exact ⟨rfl, rfl, le_rfl⟩
    | atWait =>
      cases hqueue : q.queue with
      | nil => cases hstopped : q.stopped <;> simp [QueueState.stepWorker, hqueue, hstopped]
      | cons task rest => simp [QueueState.stepWorker, hqueue]
    | executing task =>
      simp only [QueueState.stepWorker]
      split <;> simp
    | fulfilling task result => exact ⟨rfl, rfl, le_rfl⟩
    | exited => exact ⟨rfl, rfl, le_rfl⟩

/-! ### What every step keeps -/

/-- `woken` says that no task waits for workers that all sleep. -/
structure Guarded (n : Nat) (s : WaitState) : Prop where
  core : s.core.InOrder n
  length : s.waits.length = n
  waiting : ∀ w : Nat, s.waits[w]? = some .checked ∨ s.waits[w]? = some .asleep → s.core.workers[w]? = some .atWait
  locked : s.Locked → s.core.queue = []
  woken : s.core.queue ≠ [] → 0 < s.unnotified ∨ .awake ∈ s.waits
  stopped : s.core.stopped = true → s.unnotified = 0
  notified : s.notified = true → s.core.stopped = true
  merges : ∀ task ∈ s.core.tasks, ∃ result, SegmentMerger.executeMerge task = .ok result

theorem guarded_start (n : Nat) : Guarded n (start n) := by
  have hwait : ∀ (w : Nat) (wait : Wait), (start n).waits[w]? = some wait → wait = .awake := fun w wait h =>
    List.eq_of_mem_replicate (List.mem_of_getElem? h)
  refine ⟨QueueState.inOrder_start n, List.length_replicate, fun w h => ?_, fun _ => rfl, fun h => absurd rfl h,
    fun _ => rfl, fun h => ?_, fun task h => ?_⟩
  · rcases h with h | h <;> cases hwait w _ h
  · cases h
  · cases h

/-- The events of a run submit only what can be merged. -/
def Mergeable (_ : WaitState) (event : WaitEvent) : Prop :=
  ∀ task, event = .submit task → ∃ result, SegmentMerger.executeMerge task = .ok result

/-- One worker's wait changes, and it is not checked after that. -/
theorem Guarded.locked_set {n : Nat} {s : WaitState} (h : Guarded n s) {w : Nat} {wait : Wait} (hwait : wait ≠ .checked)
    (hmem : Wait.checked ∈ s.waits.set w wait) : s.core.queue = [] := by
  rcases List.mem_or_eq_of_mem_set hmem with hmem | heq
  · exact h.locked hmem
  · exact absurd heq.symm hwait

theorem Guarded.waiting_set {n : Nat} {s : WaitState} (h : Guarded n s) {w : Nat} {wait before : Wait}
    (hbefore : s.waits[w]? = some before)
    (hwait : wait = .checked ∨ wait = .asleep → s.core.workers[w]? = some .atWait) (v : Nat)
    (hv : (s.waits.set w wait)[v]? = some .checked ∨ (s.waits.set w wait)[v]? = some .asleep) :
    s.core.workers[v]? = some .atWait := by
  rw [getElem?_set_moved hbefore] at hv
  by_cases hvw : v = w
  · rw [if_pos hvw, Option.some_inj, Option.some_inj] at hv
    rw [hvw]
    exact hwait hv
  · rw [if_neg hvw] at hv
    exact h.waiting v hv

theorem Guarded.step {n : Nat} {s : WaitState} (hn : 0 < n) (h : Guarded n s) {event : WaitEvent}
    (hmerge : Mergeable s event) : Guarded n (s.step event) := by
  have hturn := s.turn_step event
  generalize s.step event = s' at hturn
  cases hturn with
  | rest => exact h
  | submit task hrunning hfree =>
    have hcore : s.core.step (.submit task) =
        {s.core with tasks := s.core.tasks ++ [task], queue := s.core.queue ++ [s.core.tasks.length]} := by
      rw [QueueState.step, if_neg (by simp [hrunning])]
    refine ⟨h.core.step (.submit task), h.length, ?_, fun hlocked => absurd hlocked hfree,
      fun _ => .inl (Nat.succ_pos _), ?_, ?_, ?_⟩
    · rw [hcore]
      exact h.waiting
    · rw [hcore]
      intro hstopped
      cases hrunning.symm.trans hstopped
    · rw [hcore]
      exact h.notified
    · rw [hcore]
      intro t ht
      rcases List.mem_append.mp ht with ht | ht
      · exact h.merges t ht
      · rw [List.mem_singleton.mp ht]
        exact hmerge task rfl
  | wake w hpending hw =>
    refine ⟨h.core, List.length_set.trans h.length, h.waiting_set hw (by simp), h.locked_set (by simp),
      fun _ => .inr ?_,
      fun hstopped => ?_, h.notified, h.merges⟩
    · exact List.mem_set (List.getElem?_eq_some_iff.mp hw).1 _
    · have hdone := h.stopped hstopped
      omega
  | nobody w hpending hnone =>
    refine ⟨h.core, h.length, h.waiting, h.locked, fun hqueue => .inr ?_, fun hstopped => ?_, h.notified, h.merges⟩
    · obtain ⟨wait, hmem⟩ := List.exists_mem_of_length_pos (h.length.symm ▸ hn)
      cases wait with
      | awake => exact hmem
      | checked => exact absurd (h.locked hmem) hqueue
      | asleep => exact absurd hmem hnone
    · have hdone := h.stopped hstopped
      omega
  | stop hdone =>
    exact ⟨h.core.step .stop, h.length, h.waiting, h.locked, h.woken, fun _ => hdone, fun _ => rfl, h.merges⟩
  | notifyAll hstopped hfirst =>
    refine ⟨h.core, List.length_map _ |>.trans h.length, fun w hw => ?_, fun hlocked => ?_, fun hqueue => ?_, h.stopped,
      fun _ => hstopped, h.merges⟩
    · rw [List.getElem?_map] at hw
      rcases hw with hw | hw
      · obtain ⟨wait, hwait, hmap⟩ := Option.map_eq_some_iff.mp hw
        cases wait <;> cases hmap
        exact h.waiting w (.inl hwait)
      · obtain ⟨wait, -, hmap⟩ := Option.map_eq_some_iff.mp hw
        cases wait <;> cases hmap
    · obtain ⟨wait, hwait, hmap⟩ := List.mem_map.mp hlocked
      cases wait <;> cases hmap
      exact h.locked hwait
    · exact (h.woken hqueue).imp id fun hawake => List.mem_map.mpr ⟨.awake, hawake, rfl⟩
  | check w hw hwait hfree hempty hrunning =>
    exact ⟨h.core, List.length_set.trans h.length, h.waiting_set hwait fun _ => hw, fun _ => hempty,
      fun hqueue => absurd hempty hqueue, h.stopped, h.notified, h.merges⟩
  | sleep w hw hwait =>
    have hempty := h.locked (List.mem_of_getElem? hwait)
    exact ⟨h.core, List.length_set.trans h.length, h.waiting_set hwait fun _ => hw, fun _ => hempty,
      fun hqueue => absurd hempty hqueue, h.stopped, h.notified, h.merges⟩
  | work w hwait =>
    obtain ⟨htasks, hstopped, hqueue⟩ := step_worker_rest s.core w
    refine ⟨h.core.step (.worker w), h.length, fun v hv => ?_, fun hlocked => ?_,
      fun hne => h.woken fun hempty => hne ?_, ?_, ?_, ?_⟩
    · have hold := h.waiting v hv
      have hvw : v ≠ w := by
        rintro rfl
        obtain ⟨hchecked, hasleep, -⟩ := hwait hold
        exact hv.elim hchecked hasleep
      rw [getElem?_step_worker s.core hvw]
      exact hold
    · have hempty : s.core.queue = [] := h.locked hlocked
      rw [hempty] at hqueue
      exact List.length_eq_zero_iff.mp (Nat.le_zero.mp hqueue)
    · rw [hempty] at hqueue
      exact List.length_eq_zero_iff.mp (Nat.le_zero.mp hqueue)
    · rw [hstopped]
      exact h.stopped
    · rw [hstopped]
      exact h.notified
    · rw [htasks]
      exact h.merges

theorem along_mergeable {events : List WaitEvent}
    (hmerges : ∀ task, .submit task ∈ events → ∃ result, SegmentMerger.executeMerge task = .ok result) (s : WaitState) :
    Along step Mergeable s events := by
  refine along_of_forall (fun event hevent _ task htask => hmerges task ?_) s
  rwa [← htask]

theorem Guarded.run {n : Nat} {s : WaitState} (hn : 0 < n) (h : Guarded n s) {events : List WaitEvent}
    (hmerges : Along WaitState.step Mergeable s events) : Guarded n (s.run events) := by
  induction events generalizing s with
  | nil => exact h
  | cons event rest ih => exact ih (h.step hn hmerges.1) hmerges.2

/-! ### Steps that are left -/

/-- Steps that a worker or its wait can make, at most, until it needs a task or a
notification. -/
def rankWorker : Worker → Nat
  | .atGuard => 2
  | .atWait => 1
  | .executing _ => 4
  | .fulfilling _ _ => 3
  | .exited => 0

def rankWait : Wait → Nat
  | .awake => 2
  | .checked => 1
  | .asleep => 0

def work (s : WaitState) : Nat :=
  4 * s.core.queue.length + 3 * s.unnotified + (s.core.workers.map rankWorker).sum + (s.waits.map rankWait).sum

/-- A worker goes on unless it has left, or has a merge that faults. -/
theorem rank_stepWorker {q : QueueState} {w : Nat} {worker : Worker} (hw : q.workers[w]? = some worker) :
    q.stepWorker w worker = q ∨
      4 * (q.stepWorker w worker).queue.length + ((q.stepWorker w worker).workers.map rankWorker).sum <
        4 * q.queue.length + (q.workers.map rankWorker).sum := by
  obtain ⟨rest, hsum, hset⟩ := exists_sum_rest rankWorker hw
  cases worker with
  | atGuard =>
    refine .inr ?_
    simp only [QueueState.stepWorker, hset, hsum]
    split <;> simp [rankWorker]
  | atWait =>
    cases hqueue : q.queue with
    | nil =>
      cases hstopped : q.stopped with
      | false => exact .inl (by simp [QueueState.stepWorker, hqueue, hstopped])
      | true =>
        refine .inr ?_
        simp only [QueueState.stepWorker, hqueue, hstopped, hset, hsum, rankWorker, if_true]
        omega
    | cons task tasks =>
      refine .inr ?_
      simp only [QueueState.stepWorker, hqueue, hset, hsum, rankWorker, List.length_cons]
      omega
  | executing task =>
    simp only [QueueState.stepWorker]
    split
    · refine .inr ?_
      simp only [hset, hsum, rankWorker]
      omega
    · exact .inl rfl
  | fulfilling task result =>
    refine .inr ?_
    simp only [QueueState.stepWorker, hset, hsum, rankWorker]
    omega
  | exited => exact .inl rfl

theorem work_step (s : WaitState) {event : WaitEvent} (hinner : event.Inner) :
    s.step event = s ∨ (s.step event).work < s.work := by
  have hturn := s.turn_step event
  generalize s.step event = s' at hturn
  cases hturn with
  | rest => exact .inl rfl
  | submit task hrunning hfree => cases hinner
  | stop hdone => cases hinner
  | notifyAll hstopped hfirst => cases hinner
  | wake w hpending hw =>
    obtain ⟨rest, hsum, hset⟩ := exists_sum_rest rankWait hw
    refine .inr ?_
    simp only [work, hset, hsum, rankWait]
    omega
  | nobody w hpending hnone =>
    refine .inr ?_
    simp only [work]
    omega
  | check w hw hwait hfree hempty hrunning =>
    obtain ⟨rest, hsum, hset⟩ := exists_sum_rest rankWait hwait
    refine .inr ?_
    simp only [work, hset, hsum, rankWait]
    omega
  | sleep w hw hwait =>
    obtain ⟨rest, hsum, hset⟩ := exists_sum_rest rankWait hwait
    refine .inr ?_
    simp only [work, hset, hsum, rankWait]
    omega
  | work w hwait =>
    rw [QueueState.step]
    cases hw : s.core.workers[w]? with
    | none => exact .inl rfl
    | some worker =>
      dsimp only
      rcases rank_stepWorker hw with heq | hlt
      · exact .inl (by rw [heq])
      · refine .inr ?_
        simp only [work]
        omega

/-! ### Who cannot go on -/

theorem ne_of_set_eq {α : Type} {l : List α} {w : Nat} {a b : α} (hw : l[w]? = some a) (heq : l.set w b = l) :
    b = a := by
  have hget := getElem?_set_moved hw b w
  rw [if_pos rfl, heq, hw] at hget
  exact (Option.some.inj hget).symm

/-- A worker of the queue that stays where it is. -/
theorem rests_of_stepWorker_eq {n : Nat} {q : QueueState} (h : q.InOrder n)
    (hmerges : ∀ task ∈ q.tasks, ∃ result, SegmentMerger.executeMerge task = .ok result) {w : Nat} {worker : Worker}
    (hw : q.workers[w]? = some worker) (heq : q.stepWorker w worker = q) :
    worker = .exited ∨ worker = .atWait ∧ q.queue = [] ∧ q.stopped = false := by
  have hworkers := congrArg QueueState.workers heq
  cases worker with
  | exited => exact .inl rfl
  | atGuard =>
    have hnext := ne_of_set_eq hw hworkers
    split at hnext <;> cases hnext
  | atWait =>
    cases hqueue : q.queue with
    | nil =>
      cases hstopped : q.stopped with
      | false => exact .inr ⟨rfl, rfl, rfl⟩
      | true =>
        simp only [QueueState.stepWorker, hqueue, hstopped] at hworkers
        cases ne_of_set_eq hw hworkers
    | cons task rest =>
      simp only [QueueState.stepWorker, hqueue] at hworkers
      cases ne_of_set_eq hw hworkers
  | executing task =>
    have hlt : task < q.tasks.length :=
      (h.held_lt hw (Multiset.mem_singleton_self task)).trans_le (Nat.sub_le _ _)
    obtain ⟨result, hresult⟩ := hmerges _ (List.getElem_mem hlt)
    simp only [QueueState.stepWorker, List.getElem?_eq_getElem hlt, Option.map_some, hresult] at hworkers
    cases ne_of_set_eq hw hworkers
  | fulfilling task result => cases ne_of_set_eq hw hworkers

/-- When no worker can go on, each has left or sleeps. -/
theorem Guarded.rests {n : Nat} {s : WaitState} (h : Guarded n s) (hstuck : s.Stuck) {w : Nat} {worker : Worker}
    (hw : s.core.workers[w]? = some worker) : worker = .exited ∨ s.waits[w]? = some .asleep := by
  have hfree : ¬ s.Locked := by
    intro hlocked
    obtain ⟨v, hv⟩ := List.mem_iff_getElem?.mp hlocked
    have hstep := congrArg WaitState.waits (hstuck (.worker v) trivial)
    rw [WaitState.step, h.waiting v (.inl hv), hv] at hstep
    cases ne_of_set_eq hv hstep
  have hcore : s.step (.worker w) = {s with core := s.core.step (.worker w)} →
      worker = .exited ∨ worker = .atWait ∧ s.core.queue = [] ∧ s.core.stopped = false := by
    intro hstep
    rw [hstuck (.worker w) trivial] at hstep
    have heq := (congrArg WaitState.core hstep).symm
    dsimp only at heq
    rw [QueueState.step, hw] at heq
    exact rests_of_stepWorker_eq h.core h.merges hw heq
  by_cases hat : worker = .atWait
  · subst hat
    have hlt : w < s.waits.length := by
      rw [h.length, ← h.core.tracked.length]
      exact (List.getElem?_eq_some_iff.mp hw).1
    obtain ⟨wait, hwait⟩ : ∃ wait, s.waits[w]? = some wait := ⟨_, List.getElem?_eq_getElem hlt⟩
    cases wait with
    | asleep => exact .inr hwait
    | checked => exact absurd (List.mem_of_getElem? hwait) hfree
    | awake =>
      have hstep : s.step (.worker w) = s.stepWaiting w .awake := by rw [WaitState.step, hw, hwait]
      rw [stepWaiting, if_neg hfree] at hstep
      by_cases hidle : s.core.queue = [] ∧ s.core.stopped = false
      · rw [if_pos hidle, hstuck (.worker w) trivial] at hstep
        cases ne_of_set_eq hwait (congrArg WaitState.waits hstep).symm
      · rw [if_neg hidle] at hstep
        exact .inl ((hcore hstep).resolve_right fun hrest => hidle hrest.2)
  · refine .inl ((hcore ?_).resolve_right fun hrest => hat hrest.1)
    rw [WaitState.step, hw]
    split
    · next heq _ => exact absurd (Option.some.inj heq) hat
    · rfl

/-- Nobody is left on the way to a notification. -/
theorem Stuck.unnotified {s : WaitState} (hstuck : s.Stuck) : s.unnotified = 0 := by
  by_contra hpending
  by_cases hsleeper : Wait.asleep ∈ s.waits
  · obtain ⟨w, hw⟩ := List.mem_iff_getElem?.mp hsleeper
    have hstep := congrArg WaitState.unnotified (hstuck (.notifyOne w) trivial)
    rw [WaitState.step, if_neg hpending, if_pos hw] at hstep
    dsimp only at hstep
    omega
  · have hstep := congrArg WaitState.unnotified (hstuck (.notifyOne 0) trivial)
    rw [WaitState.step, if_neg hpending, if_neg fun hw => hsleeper (List.mem_of_getElem? hw), if_neg hsleeper] at hstep
    dsimp only at hstep
    omega

/-- Before the merger is destroyed, nobody can go on only when all work is done. -/
theorem Guarded.served {n : Nat} {s : WaitState} (h : Guarded n s) (hrunning : s.core.stopped = false)
    (hstuck : s.Stuck) : s.core.queue = [] ∧ s.waits = List.replicate n .asleep ∧
      (s.core.promises.map Prod.fst).Perm (List.range s.core.tasks.length) := by
  have hasleep : ∀ w : Nat, w < n → s.waits[w]? = some .asleep := by
    intro w hw
    have hlt : w < s.core.workers.length := h.core.tracked.length.symm ▸ hw
    have hworker : s.core.workers[w]? = some s.core.workers[w] := List.getElem?_eq_getElem hlt
    refine (h.rests hstuck hworker).resolve_left fun hexited => ?_
    have hstopped : s.core.stopped = true :=
      h.core.tracked.stopped (List.mem_append_left _ (hexited ▸ List.mem_of_getElem? hworker))
    cases hrunning.symm.trans hstopped
  have hwaits : s.waits = List.replicate n .asleep := by
    refine List.eq_replicate_iff.mpr ⟨h.length, fun wait hmem => ?_⟩
    obtain ⟨w, hw⟩ := List.mem_iff_getElem?.mp hmem
    have hlt : w < n := h.length ▸ (List.getElem?_eq_some_iff.mp hw).1
    exact Option.some.inj (hw.symm.trans (hasleep w hlt))
  have hqueue : s.core.queue = [] := by
    by_contra hne
    rcases h.woken hne with hpending | hawake
    · exact hpending.ne' hstuck.unnotified
    · rw [hwaits] at hawake
      cases List.eq_of_mem_replicate hawake
  have howed : (s.core.workers.map Worker.owes).sum = 0 := by
    refine List.sum_eq_zero fun x hx => ?_
    obtain ⟨worker, hmem, rfl⟩ := List.mem_map.mp hx
    obtain ⟨w, hw⟩ := List.mem_iff_getElem?.mp hmem
    have hlt : w < n := h.core.tracked.length ▸ (List.getElem?_eq_some_iff.mp hw).1
    cases hw.symm.trans (h.waiting w (.inr (hasleep w hlt)))
    rfl
  have hall := h.core.tracked.fulfilled
  rw [howed, hqueue] at hall
  exact ⟨hqueue, hwaits, Multiset.coe_eq_coe.mp ((zero_add _).symm.trans hall)⟩

theorem stopped_run {s : WaitState} (h : s.core.stopped = false) {events : List WaitEvent} (hstop : .stop ∉ events) :
    (s.run events).core.stopped = false := by
  induction events generalizing s with
  | nil => exact h
  | cons event rest ih =>
    refine ih ?_ fun hmem => hstop (List.mem_cons_of_mem event hmem)
    have hturn := s.turn_step event
    generalize s.step event = s' at hturn
    cases hturn with
    | stop hdone => exact absurd List.mem_cons_self hstop
    | submit task hrunning hfree => simp [QueueState.step, hrunning]
    | work w hwait => exact (step_worker_rest s.core w).2.1.trans h
    | _ => exact h

/-! ### The destructor -/

/-- The workers can all come to their ends, without a wait that ends by itself. -/
def Joinable (s : WaitState) : Prop :=
  s.notified = true → ∃ more : List WaitEvent, (∀ event ∈ more, event.Inner) ∧ (s.run more).core.AllExited

/-- No worker is between its look and its sleep when the destructor notifies. -/
def Heard (s : WaitState) : WaitEvent → Prop
  | .notifyAll => s.core.stopped = true → s.notified = false → ¬ s.Locked
  | _ => True

/-- Once the destructor has notified, everybody is up. -/
structure Waked (n : Nat) (s : WaitState) : Prop where
  guarded : Guarded n s
  awake : s.notified = true → ∀ wait ∈ s.waits, wait = .awake

theorem Waked.step {n : Nat} {s : WaitState} (hn : 0 < n) (h : Waked n s) {event : WaitEvent}
    (hmerge : Mergeable s event) (hheard : s.Heard event) : Waked n (s.step event) := by
  refine ⟨h.guarded.step hn hmerge, ?_⟩
  have hturn := s.turn_step event
  generalize s.step event = s' at hturn
  cases hturn with
  | rest => exact h.awake
  | submit task hrunning hfree => exact h.awake
  | wake w hpending hw => exact fun hnotified => absurd (h.awake hnotified _ (List.mem_of_getElem? hw)) (by simp)
  | nobody w hpending hnone => exact h.awake
  | stop hdone => exact h.awake
  | notifyAll hstopped hfirst =>
    intro _ wait hmem
    obtain ⟨before, hbefore, hmap⟩ := List.mem_map.mp hmem
    cases before with
    | awake => exact hmap.symm
    | asleep => exact hmap.symm
    | checked => exact absurd hbefore (hheard hstopped hfirst)
  | check w hw hwait hfree hempty hrunning =>
    intro hnotified
    cases hrunning.symm.trans (h.guarded.notified hnotified)
  | sleep w hw hwait => exact fun hnotified => absurd (h.awake hnotified _ (List.mem_of_getElem? hwait)) (by simp)
  | work w hwait => exact h.awake

/-- Whoever is up goes on until it has left. -/
theorem Waked.joinable {n : Nat} {s : WaitState} (hn : 0 < n) (h : Waked n s) : s.Joinable := by
  intro hnotified
  induction hwork : s.work using Nat.strong_induction_on generalizing s with
  | h k ih =>
    by_cases hstuck : s.Stuck
    · refine ⟨[], fun event hevent => absurd hevent List.not_mem_nil, fun worker hmem => ?_⟩
      obtain ⟨w, hw⟩ := List.mem_iff_getElem?.mp hmem
      refine (h.guarded.rests hstuck hw).resolve_right fun hasleep => ?_
      cases h.awake hnotified _ (List.mem_of_getElem? hasleep)
    · unfold Stuck at hstuck
      push Not at hstuck
      obtain ⟨event, hinner, hne⟩ := hstuck
      have hlt := (s.work_step hinner).resolve_left hne
      have hmerge : Mergeable s event := by
        rintro task rfl
        cases hinner
      have hheard : s.Heard event := by
        cases event with
        | notifyAll => cases hinner
        | _ => trivial
      have hstill : (s.step event).notified = true := by
        have hturn := s.turn_step event
        generalize s.step event = s' at hturn
        cases hturn <;> first | exact hnotified | rfl
      obtain ⟨more, hmore, hexited⟩ := ih _ (hwork ▸ hlt) (h.step hn hmerge hheard) hstill rfl
      refine ⟨event :: more, fun e he => ?_, hexited⟩
      rcases List.mem_cons.mp he with rfl | he
      · exact hinner
      · exact hmore e he

/-- A worker that missed the notification. -/
structure Lost (w : Nat) (s : WaitState) : Prop where
  worker : s.core.workers[w]? = some .atWait
  wait : s.waits[w]? = some .checked ∨ s.waits[w]? = some .asleep
  unnotified : s.unnotified = 0

theorem Lost.step {w : Nat} {s : WaitState} (h : Lost w s) {event : WaitEvent} (hinner : event.Inner) :
    Lost w (s.step event) := by
  have hturn := s.turn_step event
  generalize s.step event = s' at hturn
  cases hturn with
  | rest => exact h
  | submit task hrunning hfree => cases hinner
  | stop hdone => cases hinner
  | notifyAll hstopped hfirst => cases hinner
  | wake v hpending hv => exact absurd h.unnotified hpending.ne'
  | nobody v hpending hnone => exact absurd h.unnotified hpending.ne'
  | check v hv hwait hfree hempty hrunning =>
    refine ⟨h.worker, ?_, h.unnotified⟩
    show (s.waits.set v .checked)[w]? = _ ∨ (s.waits.set v .checked)[w]? = _
    rw [getElem?_set_moved hwait]
    by_cases hwv : w = v
    · exact .inl (if_pos hwv)
    · rw [if_neg hwv]
      exact h.wait
  | sleep v hv hwait =>
    refine ⟨h.worker, ?_, h.unnotified⟩
    show (s.waits.set v .asleep)[w]? = _ ∨ (s.waits.set v .asleep)[w]? = _
    rw [getElem?_set_moved hwait]
    by_cases hwv : w = v
    · exact .inr (if_pos hwv)
    · rw [if_neg hwv]
      exact h.wait
  | work v hwait =>
    refine ⟨?_, h.wait, h.unnotified⟩
    have hwv : w ≠ v := by
      rintro rfl
      obtain ⟨hchecked, hasleep, -⟩ := hwait h.worker
      exact h.wait.elim hchecked hasleep
    exact (getElem?_step_worker s.core hwv).trans h.worker

theorem Lost.run {w : Nat} {s : WaitState} (h : Lost w s) {events : List WaitEvent}
    (hinner : ∀ event ∈ events, event.Inner) : Lost w (s.run events) := by
  induction events generalizing s with
  | nil => exact h
  | cons event rest ih =>
    exact ih (h.step (hinner event List.mem_cons_self)) fun e he => hinner e (List.mem_cons_of_mem event he)

theorem Waked.heard {n : Nat} {s : WaitState} (h : Waked n s) {event : WaitEvent}
    (hjoinable : (s.step event).Joinable) : s.Heard event := by
  cases event with
  | notifyAll =>
    intro hstopped hfirst hlocked
    obtain ⟨w, hw⟩ := List.mem_iff_getElem?.mp hlocked
    have hworker := h.guarded.waiting w (.inl hw)
    have hstep : s.step .notifyAll =
        {s with waits := s.waits.map fun wait => if wait = .asleep then .awake else wait, notified := true} :=
      if_pos ⟨hstopped, hfirst⟩
    rw [hstep] at hjoinable
    obtain ⟨more, hinner, hexited⟩ := hjoinable rfl
    have hlost : Lost w {s with
        waits := s.waits.map fun wait => if wait = .asleep then .awake else wait, notified := true} := by
      refine ⟨hworker, .inl ?_, h.guarded.stopped hstopped⟩
      rw [List.getElem?_map, hw]
      rfl
    cases hexited _ (List.mem_of_getElem? (hlost.run hinner).worker)
  | _ => trivial

end WaitState

open WaitState in
/-- **No task is forgotten.** While the merger is not being destroyed, workers and calls
that have begun can go on until every promise is fulfilled and everybody sleeps, and they
cannot go on for ever: each step they make leaves less to do. -/
theorem no_lost_wakeup (numThreads : Nat) (hn : 1 ≤ numThreads) (events : List WaitEvent)
    (hmerges : ∀ task, .submit task ∈ events → ∃ result, SegmentMerger.executeMerge task = .ok result)
    (hstop : .stop ∉ events) :
    let s := (start numThreads).run events
    (∀ event : WaitEvent, event.Inner → s.step event = s ∨ (s.step event).work < s.work) ∧
    (s.Stuck → s.core.queue = [] ∧ s.waits = List.replicate numThreads .asleep ∧
      (s.core.promises.map Prod.fst).Perm (List.range s.core.tasks.length)) := by
  have h := (guarded_start numThreads).run hn (along_mergeable hmerges _)
  exact ⟨fun event => work_step _, h.served (stopped_run rfl hstop)⟩

/-- One worker, which sleeps before a task comes and after it. -/
def wokenEvents : List WaitEvent :=
  [.worker 0, .worker 0, .worker 0, .submit {inputSegments := []}, .notifyOne 0, .worker 0, .worker 0, .worker 0,
    .worker 0, .worker 0, .worker 0]

theorem mergeable_empty (events : List WaitEvent)
    (h : ∀ task, .submit task ∈ events → task = {inputSegments := []}) (task : MergeTask)
    (htask : .submit task ∈ events) :
    ∃ result, SegmentMerger.executeMerge task = .ok result := by
  rw [h task htask]
  exact ⟨_, rfl⟩

theorem wokenEvents_stuck : ((WaitState.start 1).run wokenEvents).Stuck := by
  intro event hinner
  cases event with
  | notifyOne w => rfl
  | worker w =>
    cases w with
    | zero => rfl
    | succ w => rfl
  | submit task => exact hinner.elim
  | stop => exact hinner.elim
  | notifyAll => exact hinner.elim

theorem woken_served : (((WaitState.start 1).run wokenEvents).core.promises.map Prod.fst).Perm (List.range 1) :=
  ((no_lost_wakeup 1 le_rfl wokenEvents (mergeable_empty _ (by simp [wokenEvents]))
    (by simp [wokenEvents])).2 wokenEvents_stuck).2.2

open WaitState in
/-- **In every run the workers can be joined, whenever the destructor has notified them,
exactly if none of them is between its look and its sleep when it does.** -/
theorem joinable_iff (numThreads : Nat) (hn : 1 ≤ numThreads) (events : List WaitEvent)
    (hmerges : ∀ task, .submit task ∈ events → ∃ result, SegmentMerger.executeMerge task = .ok result) :
    Throughout step Joinable (start numThreads) events ↔ Along step Heard (start numThreads) events :=
  throughout_iff_along_within (Waked numThreads) (fun _ h => h.joinable hn)
    (fun _ _ h hmerge hheard => h.step hn hmerge hheard) (fun _ _ h _ hjoinable => h.heard hjoinable)
    ⟨guarded_start numThreads, fun h => by cases h⟩
    (along_mergeable hmerges _)

/-- The worker sleeps when the destructor notifies it. -/
theorem sleeper_joinable :
    Throughout WaitState.step WaitState.Joinable (WaitState.start 1)
      [.worker 0, .worker 0, .worker 0, .stop, .notifyAll] :=
  (joinable_iff 1 le_rfl _ (mergeable_empty _ (by simp))).mpr
    ⟨trivial, trivial, trivial, trivial, fun _ _ => by decide, trivial⟩

/-- It has looked, and does not sleep yet. -/
example : ¬ Along WaitState.step WaitState.Heard (WaitState.start 1) [.worker 0, .worker 0, .stop, .notifyAll] :=
  fun h => h.2.2.2.1 rfl rfl (by decide)

end ColumnarStore.Merger
