import ColumnarStore.Foundation.Runs
import ColumnarStore.Foundation.Sharing
import ColumnarStore.Merger.SegmentMerger

/-! The queue of merge tasks.

`SubmitMerge` puts a task at the end of the queue; each worker goes round a loop that
takes the first task, executes it and fulfils its promise; the destructor sets a flag
and waits for the workers. A worker leaves its loop at the guard as soon as it finds the
flag set, whatever the queue holds, and at the wait only when the queue is empty. What
was submitted is at every moment in the queue, with a worker, or done (`Queued`), so
nothing is lost exactly when the last worker to leave does not leave at the guard with
tasks in the queue (`queue_drained_iff`). -/
namespace ColumnarStore.Merger
open Foundation

/-- Where a worker is in its loop: at the guard, at the wait for the queue, with a task it
has taken, with the task's result, or out of the loop. -/
inductive Worker where
  | atGuard
  | atWait
  | executing (task : Nat)
  | fulfilling (task : Nat) (result : Segment)
  | exited

/-- Tasks are known by their place in the order they were submitted in. -/
structure QueueState where
  tasks : List MergeTask := []
  queue : List Nat := []
  workers : List Worker
  stopped : Bool := false
  executed : List Nat := []
  promises : List (Nat × Segment) := []

/-- A call of `SubmitMerge`, the store to the flag, or a step of a worker. -/
inductive QueueEvent where
  | submit (task : MergeTask)
  | stop
  | worker (w : Nat)

namespace QueueState

def start (numThreads : Nat) : QueueState := {workers := List.replicate numThreads .atGuard}

/-- One step of `WorkerLoop`. A wait may end at any time, and looks at the queue again. A
merge that faults ends the process: its worker gets no further. -/
def stepWorker (s : QueueState) (w : Nat) : Worker → QueueState
  | .atGuard => {s with workers := s.workers.set w (if s.stopped then .exited else .atWait)}
  | .atWait =>
    match s.queue with
    | [] => if s.stopped then {s with workers := s.workers.set w .exited} else s
    | task :: rest => {s with queue := rest, workers := s.workers.set w (.executing task)}
  | .executing task =>
    match s.tasks[task]?.map SegmentMerger.executeMerge with
    | some (.ok result) => {s with
        workers := s.workers.set w (.fulfilling task result)
        executed := s.executed ++ [task]}
    | _ => s
  | .fulfilling task result => {s with
      workers := s.workers.set w .atGuard
      promises := s.promises ++ [(task, result)]}
  | .exited => s

/-- Nobody may submit to a merger that is being destroyed. -/
def step (s : QueueState) : QueueEvent → QueueState
  | .submit task =>
    if s.stopped then s
    else {s with tasks := s.tasks ++ [task], queue := s.queue ++ [s.tasks.length]}
  | .stop => {s with stopped := true}
  | .worker w =>
    match s.workers[w]? with
    | none => s
    | some worker => s.stepWorker w worker

def AllExited (s : QueueState) : Prop := ∀ worker ∈ s.workers, worker = .exited

/-- The segment is what executing the task gives. -/
def Result (s : QueueState) (task : Nat) (result : Segment) : Prop :=
  ∃ merge, s.tasks[task]? = some merge ∧ SegmentMerger.executeMerge merge = .ok result

/-- When all workers have left, every task that was submitted was executed once and its
promise was fulfilled once, with its result. -/
def Drained (s : QueueState) : Prop :=
  s.AllExited → s.executed.Perm (List.range s.tasks.length) ∧
    (s.promises.map Prod.fst).Perm (List.range s.tasks.length) ∧ ∀ p ∈ s.promises, s.Result p.1 p.2

/-- A worker that finds the flag set at the guard when all others have left leaves no task. -/
def LeavesNone (s : QueueState) : QueueEvent → Prop
  | .worker w => s.workers[w]? = some .atGuard → s.stopped = true →
      (∀ v worker, v ≠ w → s.workers[v]? = some worker → worker = .exited) → s.queue = []
  | _ => True

end QueueState

/-! ### Where the tasks are -/

/-- What a worker has still to execute, and to fulfil. -/
def Worker.owes : Worker → Multiset Nat × Multiset Nat
  | executing task => ({task}, {task})
  | fulfilling task _ => (0, {task})
  | _ => 0

namespace QueueState

/-- The tasks to be executed, being executed and executed; and the same for their promises. -/
def accounted (s : QueueState) : Multiset Nat × Multiset Nat :=
  ((s.queue : Multiset Nat), (s.queue : Multiset Nat)) + (s.workers.map Worker.owes).sum +
    ((s.executed : Multiset Nat), (s.promises.map Prod.fst : Multiset Nat))

structure Queued (n : Nat) (s : QueueState) : Prop where
  workers : s.workers.length = n
  accounted : s.accounted = ((List.range s.tasks.length : Multiset Nat), (List.range s.tasks.length : Multiset Nat))
  held : ∀ task result, .fulfilling task result ∈ s.workers → s.Result task result
  results : ∀ p ∈ s.promises, s.Result p.1 p.2
  stopped : .exited ∈ s.workers → s.stopped = true
  drained : s.AllExited → s.queue = []

theorem queued_start (numThreads : Nat) : Queued numThreads (start numThreads) := by
  refine ⟨by simp [start], ?_, fun task result h => ?_, fun p hp => absurd hp List.not_mem_nil, fun h => ?_,
    fun _ => rfl⟩
  · have hnone : ((start numThreads).workers.map Worker.owes).sum = 0 := by simp [start, Worker.owes]
    rw [QueueState.accounted, hnone]
    rfl
  · cases List.eq_of_mem_replicate h
  · cases List.eq_of_mem_replicate h

theorem Queued.finished {n : Nat} {s : QueueState} (h : Queued n s) : s.Drained := by
  intro hexited
  have howed : (s.workers.map Worker.owes).sum = 0 := by
    refine List.sum_eq_zero fun x hx => ?_
    obtain ⟨worker, hworker, rfl⟩ := List.mem_map.mp hx
    rw [hexited worker hworker]
    rfl
  have hall := h.accounted
  rw [QueueState.accounted, howed, h.drained hexited, add_zero, Prod.mk_add_mk, Multiset.coe_nil, zero_add,
    zero_add] at hall
  obtain ⟨hexecuted, hpromises⟩ := Prod.ext_iff.mp hall
  exact ⟨Multiset.coe_eq_coe.mp hexecuted, Multiset.coe_eq_coe.mp hpromises, h.results⟩

/-! ### One event -/

theorem Result.append {s : QueueState} {task : Nat} {result : Segment} (h : s.Result task result)
    (more : List MergeTask) {s' : QueueState} (hs' : s'.tasks = s.tasks ++ more) : s'.Result task result := by
  obtain ⟨merge, hget, hmerge⟩ := h
  refine ⟨merge, ?_, hmerge⟩
  rw [hs', List.getElem?_append_left (List.getElem?_eq_some_iff.mp hget).1, hget]

theorem Queued.submit {n : Nat} {s : QueueState} (hn : 0 < n) (h : Queued n s) (task : MergeTask) :
    Queued n (s.step (.submit task)) := by
  rw [step]
  split
  · exact h
  · next hrunning =>
    refine ⟨h.workers, ?_, fun t r ht => (h.held t r ht).append [task] rfl,
      fun p hp => (h.results p hp).append [task] rfl, h.stopped, fun hexited => ?_⟩
    · have hall := h.accounted
      rw [QueueState.accounted] at hall ⊢
      rw [List.length_append, List.length_singleton, List.range_succ, ← Multiset.coe_add, ← Multiset.coe_add,
        ← Prod.mk_add_mk, ← Prod.mk_add_mk, ← hall]
      abel
    · obtain ⟨worker, hworker⟩ := List.exists_mem_of_length_pos (h.workers.symm ▸ hn)
      exact absurd (h.stopped (hexited worker hworker ▸ hworker)) hrunning

/-- A worker that moves and is not the last to leave tasks behind. -/
theorem Queued.move {n : Nat} {s s' : QueueState} {w : Nat} {before worker : Worker} (h : Queued n s)
    (hw : s.workers[w]? = some before) (hworkers : s'.workers = s.workers.set w worker)
    (htasks : s'.tasks = s.tasks) (hstopped : s'.stopped = s.stopped) (haccounted : s'.accounted = s.accounted)
    (hheld : ∀ task result, worker = .fulfilling task result → s.Result task result)
    (hresults : ∀ p ∈ s'.promises, p ∈ s.promises ∨ s.Result p.1 p.2)
    (hleft : worker = .exited → s.stopped = true ∧ (s'.AllExited → s'.queue = [])) : Queued n s' := by
  have hresult : ∀ task result, s.Result task result → s'.Result task result := fun task result hr =>
    hr.append [] (htasks.trans (List.append_nil _).symm)
  refine ⟨?_, ?_, fun task result hmem => ?_, fun p hp => ?_, fun hmem => ?_, fun hexited => ?_⟩
  · rw [hworkers, List.length_set, h.workers]
  · rw [haccounted, htasks, h.accounted]
  · rw [hworkers] at hmem
    rcases List.mem_or_eq_of_mem_set hmem with hmem | heq
    · exact hresult _ _ (h.held task result hmem)
    · exact hresult _ _ (hheld task result heq.symm)
  · exact (hresults p hp).elim (fun hp => hresult _ _ (h.results p hp)) (hresult _ _)
  · rw [hworkers] at hmem
    rw [hstopped]
    rcases List.mem_or_eq_of_mem_set hmem with hmem | heq
    · exact h.stopped hmem
    · exact (hleft heq.symm).1
  · have hself : worker = .exited := by
      refine hexited worker ?_
      rw [hworkers]
      exact List.mem_set (List.getElem?_eq_some_iff.mp hw).1 worker
    exact (hleft hself).2 hexited

theorem Queued.stepWorker {n : Nat} {s : QueueState} (h : Queued n s) {w : Nat} {worker : Worker}
    (hw : s.workers[w]? = some worker) (hleaves : s.LeavesNone (.worker w)) :
    Queued n (s.stepWorker w worker) := by
  cases worker with
  | atGuard =>
    have hsum : ∀ next, Worker.owes next = 0 →
        ((s.workers.set w next).map Worker.owes).sum = (s.workers.map Worker.owes).sum := by
      intro next hnext
      rw [sum_map_set_gain Worker.owes hw (hnext.trans (zero_add 0).symm), zero_add]
    refine h.move hw rfl rfl rfl ?_ (fun task result => ?_) (fun p => .inl) (fun hself => ?_)
    · rw [QueueState.accounted, QueueState.stepWorker, hsum _ (by split <;> rfl)]
      rfl
    · split <;> simp
    · cases hstopped : s.stopped with
      | false => simp [hstopped] at hself
      | true =>
        refine ⟨rfl, fun hexited => hleaves hw hstopped fun v worker hv hget => ?_⟩
        refine hexited worker (List.mem_of_getElem? (i := v) ?_)
        rw [QueueState.stepWorker, List.getElem?_set_ne (Ne.symm hv), hget]
  | atWait =>
    cases hqueue : s.queue with
    | nil =>
      cases hstopped : s.stopped with
      | false => simpa [QueueState.stepWorker, hqueue, hstopped] using h
      | true =>
        have hnext : s.stepWorker w .atWait = {s with workers := s.workers.set w .exited} := by
          simp [QueueState.stepWorker, hqueue, hstopped]
        rw [hnext]
        refine h.move hw rfl rfl rfl ?_ (by simp) (fun p => .inl) fun _ => ⟨hstopped, fun _ => hqueue⟩
        rw [QueueState.accounted, sum_map_set_gain Worker.owes hw (x := 0) rfl, zero_add]
        rfl
    | cons task rest =>
      have hnext : s.stepWorker w .atWait =
          {s with queue := rest, workers := s.workers.set w (.executing task)} := by
        simp [QueueState.stepWorker, hqueue]
      rw [hnext]
      refine h.move hw rfl rfl rfl ?_ (by simp) (fun p => .inl) (by simp)
      rw [QueueState.accounted, QueueState.accounted, hqueue,
        sum_map_set_gain Worker.owes hw (x := ({task}, {task})) rfl]
      rw [← Multiset.cons_coe, ← Multiset.singleton_add, ← Prod.mk_add_mk]
      abel
  | executing task =>
    rw [QueueState.stepWorker]
    split
    · next result hresult =>
      obtain ⟨merge, hget, hmerge⟩ := Option.map_eq_some_iff.mp hresult
      refine h.move hw rfl rfl rfl ?_ (fun task' result' heq => ?_) (fun p => .inl) (by simp)
      · have hsum := sum_map_set Worker.owes (b := .fulfilling task result) (x := ({task}, 0)) hw
          (by simp [Worker.owes])
        rw [QueueState.accounted, QueueState.accounted, hsum, ← Multiset.coe_add, Multiset.coe_singleton]
        rw [← add_zero (s.promises.map Prod.fst : Multiset Nat), ← Prod.mk_add_mk]
        abel_nf
      · cases heq
        exact ⟨merge, hget, hmerge⟩
    · exact h
  | fulfilling task result =>
    refine h.move hw rfl rfl rfl ?_ (by simp) (fun p hp => ?_) (by simp)
    · have hsum := sum_map_set Worker.owes (b := .atGuard) (x := (0, {task})) hw (by simp [Worker.owes])
      rw [QueueState.stepWorker, QueueState.accounted, QueueState.accounted, hsum, List.map_append,
        ← Multiset.coe_add, ← add_zero (s.executed : Multiset Nat), ← Prod.mk_add_mk]
      simp only [add_zero, List.map_cons, List.map_nil, Multiset.coe_singleton]
      abel
    · rcases List.mem_append.mp hp with hp | hp
      · exact .inl hp
      · cases List.mem_singleton.mp hp
        exact .inr (h.held task result (List.mem_of_getElem? hw))
  | exited => exact h

/-! ### Runs -/

theorem Queued.step {n : Nat} {s : QueueState} (hn : 0 < n) (h : Queued n s) {event : QueueEvent}
    (hleaves : s.LeavesNone event) : Queued n (s.step event) := by
  cases event with
  | submit task => exact h.submit hn task
  | stop => exact ⟨h.workers, h.accounted, h.held, h.results, fun _ => rfl, h.drained⟩
  | worker w =>
    rw [QueueState.step]
    cases hw : s.workers[w]? with
    | none => exact h
    | some worker => exact h.stepWorker hw hleaves

/-- Tasks the last worker leaves at the guard are never executed. -/
theorem Queued.leavesNone {n : Nat} {s : QueueState} (h : Queued n s) {event : QueueEvent}
    (hdrained : (s.step event).Drained) : s.LeavesNone event := by
  cases event with
  | submit task => trivial
  | stop => trivial
  | worker w =>
    intro hw hstopped hothers
    have hnext : s.step (.worker w) = {s with workers := s.workers.set w .exited} := by
      rw [QueueState.step, hw]
      simp [QueueState.stepWorker, hstopped]
    rw [hnext] at hdrained
    obtain ⟨hexecuted, -, -⟩ := hdrained fun worker hmem => by
      obtain ⟨v, hv⟩ := List.mem_iff_getElem?.mp hmem
      by_cases hvw : v = w
      · subst hvw
        rw [List.getElem?_set_self (List.getElem?_eq_some_iff.mp hw).1] at hv
        exact (Option.some.inj hv).symm
      · rw [List.getElem?_set_ne (Ne.symm hvw)] at hv
        exact hothers v worker hvw hv
    have hall := congrArg Prod.fst h.accounted
    rw [← Multiset.coe_eq_coe.mpr hexecuted] at hall
    have hzero := add_eq_right.mp hall
    exact (Multiset.coe_eq_zero _).mp (add_eq_zero.mp hzero).1

end QueueState

open QueueState in
/-- **In every run, whenever all workers have left every task that was submitted was
executed once and its promise fulfilled, exactly when no worker that is the last to leave
leaves at the guard with tasks in the queue.** -/
theorem queue_drained_iff (numThreads : Nat) (hn : 1 ≤ numThreads) (events : List QueueEvent) :
    Throughout step Drained (start numThreads) events ↔ Along step LeavesNone (start numThreads) events :=
  throughout_iff_along (Queued numThreads) (fun _ h => h.finished) (fun _ _ h hleaves => h.step hn hleaves)
    (fun _ _ h hdrained => h.leavesNone hdrained) (queued_start numThreads) events

/-- One worker, which goes round its loop once before it is stopped. -/
def servedEvents : List QueueEvent :=
  [.submit {inputSegments := []}, .worker 0, .worker 0, .worker 0, .worker 0, .stop, .worker 0]

theorem served_drained :
    Throughout QueueState.step QueueState.Drained (QueueState.start 1) servedEvents := by
  refine (queue_drained_iff 1 (by decide) servedEvents).mpr
    ⟨trivial, fun _ h => ?_, fun _ h => ?_, fun _ h => ?_, fun _ h => ?_, trivial, fun _ _ _ => rfl, trivial⟩
  all_goals cases h

/-- The worker finds the flag set before it has looked at the queue. -/
def unservedEvents : List QueueEvent := [.submit {inputSegments := []}, .stop, .worker 0]

theorem unserved_lost :
    ¬ Throughout QueueState.step QueueState.Drained (QueueState.start 1) unservedEvents := by
  intro h
  obtain ⟨-, -, -, hlast⟩ := h
  have hexited : ∀ worker ∈ [Worker.exited], worker = .exited := by simp
  have hperm := (hlast hexited).1.length_eq
  cases hperm

end ColumnarStore.Merger
