import ColumnarStore.Foundation.Sharing
import ColumnarStore.Scanner.Unpruned

/-! Several threads over a list of segments.

Thread `t` of `n` scans the segments `t`, `t + n`, `t + 2n` and so on with scanners of its
own, and passes their batches to the one output function; the counters of the threads
are summed when all are done. A thread's steps are the calls of the output function, the
start of a scan and its end. Which thread goes next is left to a schedule; whatever it
is, what was delivered and what is still to be delivered stay the same together
(`thread_step`), so the schedule and the number of threads do not matter
(`parallel_delivers`). -/
namespace ColumnarStore.Scanner
open Foundation Predicates

/-! ### Counters -/

namespace ScanStats

/-- Counter by counter. -/
def add (a b : ScanStats) : ScanStats where
  blocksScanned := a.blocksScanned + b.blocksScanned
  blocksPrunedZoneMap := a.blocksPrunedZoneMap + b.blocksPrunedZoneMap
  blocksPrunedBloom := a.blocksPrunedBloom + b.blocksPrunedBloom
  rowsScanned := a.rowsScanned + b.rowsScanned
  rowsFiltered := a.rowsFiltered + b.rowsFiltered
  rowsReturned := a.rowsReturned + b.rowsReturned

instance : Zero ScanStats := ⟨{}⟩
instance : Add ScanStats := ⟨add⟩

theorem add_def (a b : ScanStats) : a + b = a.add b := rfl

theorem zero_def : (0 : ScanStats) = {} := rfl

instance : AddCommMonoid ScanStats where
  add_assoc a b c := by simp only [add_def, add, Nat.add_assoc]
  zero_add a := by simp only [add_def, zero_def, add, Nat.zero_add]
  add_zero a := by simp only [add_def, zero_def, add, Nat.add_zero]
  add_comm a b := by simp only [add_def, add, Nat.add_comm]
  nsmul := nsmulRec

end ScanStats

/-! ### The threads -/

structure ParallelScanner where
  segments : List Segment
  context : ScanContext
  numThreads : Nat

/-- A thread in its loop: the segment it is at; while it scans that segment, the scanner's
counters and the batches still to be passed on; and its own counters. -/
structure ScanThread where
  index : Nat
  scan : Option (ScanStats × List Batch) := none
  stats : ScanStats := 0

/-- `scanned` has the number of a segment for every scan that was started. -/
structure ParallelState where
  threads : List ScanThread
  cancelled : Bool := false
  output : List Batch := []
  scanned : List Nat := []

/-- What happens next: a step of a thread, or a call of `Cancel`. -/
inductive ParallelEvent where
  | thread (t : Nat)
  | cancel
  deriving DecidableEq

namespace ParallelScanner

def start (ps : ParallelScanner) : ParallelState where
  threads := (List.range ps.numThreads).map fun t => {index := t}

/-- One step of a thread; one that has left its loop does nothing. -/
def stepThread (build : Build) (ps : ParallelScanner) (predicate : Predicate) (s : ParallelState) (t : Nat)
    (th : ScanThread) : Outcome ParallelState :=
  match th.scan with
  | some (stats, batch :: rest) => .ok {s with
      threads := s.threads.set t {th with scan := some (stats, rest)}
      output := if s.cancelled then s.output else s.output ++ [batch]}
  | some (stats, []) => .ok {s with
      threads := s.threads.set t {index := th.index + ps.numThreads, stats := th.stats + stats}}
  | none =>
    if s.cancelled then .ok s
    else match ps.segments[th.index]? with
      | none => .ok s
      | some seg => do
        let scan ← scanSegment build seg ps.context predicate
        return {s with
          threads := s.threads.set t {th with scan := some scan}
          scanned := s.scanned ++ [th.index]}

def step (build : Build) (ps : ParallelScanner) (predicate : Predicate) (s : ParallelState) :
    ParallelEvent → Outcome ParallelState
  | .thread t =>
    match s.threads[t]? with
    | none => .ok s
    | some th => ps.stepThread build predicate s t th
  | .cancel => .ok {s with cancelled := true}

def run (build : Build) (ps : ParallelScanner) (predicate : Predicate) (events : List ParallelEvent) :
    Outcome ParallelState :=
  events.foldlM (ps.step build predicate) ps.start

/-- The thread has left its loop. -/
def Left (ps : ParallelScanner) (s : ParallelState) (th : ScanThread) : Prop :=
  th.scan = none ∧ (s.cancelled = true ∨ ps.segments.length ≤ th.index)

/-- All threads can be joined. -/
def Finished (ps : ParallelScanner) (s : ParallelState) : Prop := ∀ th ∈ s.threads, ps.Left s th

/-- `Stats` of a scanner after its first scan. -/
def stats (s : ParallelState) : ScanStats := (s.threads.map ScanThread.stats).foldl (· + ·) 0

end ParallelScanner

/-! ### What is still to be delivered -/

/-- Batches, numbers of segments and counters. -/
abbrev Yield := Multiset Batch × Multiset Nat × ScanStats

namespace ParallelScanner
variable (ps : ParallelScanner) (scans : List (ScanStats × List Batch))

/-- What the scan of a segment yields. -/
def segmentYield (k : Nat) : Yield :=
  ((scans.getD k ({}, [])).2, {k}, (scans.getD k ({}, [])).1)

/-- What a thread has and will have counted and has still to deliver. -/
def threadYield (th : ScanThread) : Yield :=
  match th.scan with
  | none => (0, 0, th.stats) + ∑ k ∈ stride ps.numThreads ps.segments.length th.index, segmentYield scans k
  | some (stats, batches) => ((batches : Multiset Batch), 0, th.stats + stats) +
      ∑ k ∈ stride ps.numThreads ps.segments.length (th.index + ps.numThreads), segmentYield scans k

def total (s : ParallelState) : Yield :=
  ((s.output : Multiset Batch), (s.scanned : Multiset Nat), 0) + (s.threads.map (ps.threadYield scans)).sum

/-- The steps a thread has still to make. -/
def threadWork (th : ScanThread) : Nat :=
  match th.scan with
  | none => ∑ k ∈ stride ps.numThreads ps.segments.length th.index, ((scans.getD k ({}, [])).2.length + 2)
  | some (_, batches) => batches.length + 1 +
      ∑ k ∈ stride ps.numThreads ps.segments.length (th.index + ps.numThreads),
        ((scans.getD k ({}, [])).2.length + 2)

def work (s : ParallelState) : Nat := (s.threads.map (ps.threadWork scans)).sum

/-! ### One step -/

variable {ps scans}

/-- A thread that moves passes on what it loses. -/
theorem total_of_move {s s' : ParallelState} {t : Nat} {th th' : ScanThread} {x : Yield}
    (hth : s.threads[t]? = some th) (hthreads : s'.threads = s.threads.set t th')
    (hpassed : ((s'.output : Multiset Batch), (s'.scanned : Multiset Nat), (0 : ScanStats)) =
      ((s.output : Multiset Batch), (s.scanned : Multiset Nat), (0 : ScanStats)) + x)
    (hyield : ps.threadYield scans th = x + ps.threadYield scans th') : ps.total scans s' = ps.total scans s := by
  rw [total, total, hthreads, hpassed, sum_map_set (ps.threadYield scans) hth hyield, add_assoc]

theorem work_of_move {s s' : ParallelState} {t : Nat} {th th' : ScanThread} (hth : s.threads[t]? = some th)
    (hthreads : s'.threads = s.threads.set t th') (hwork : ps.threadWork scans th = 1 + ps.threadWork scans th') :
    ps.work scans s = ps.work scans s' + 1 := by
  rw [work, work, hthreads, sum_map_set (ps.threadWork scans) hth hwork, add_comm]

/-- The list has the result of every scan that returns. -/
def Lists (build : Build) (ps : ParallelScanner) (predicate : Predicate)
    (scans : List (ScanStats × List Batch)) : Prop :=
  ∀ (i : Nat) (seg : Segment) (scan : ScanStats × List Batch), ps.segments[i]? = some seg →
    scanSegment build seg ps.context predicate = .ok scan → scans.getD i ({}, []) = scan

section Step
variable {build : Build} {predicate : Predicate}

/-- A thread's step leaves what was and will be delivered as it is, starts no scan but one
that returns, and in a thread that is in its loop leaves one step less to make. -/
theorem thread_step (hn : 0 < ps.numThreads) (hlists : Lists build ps predicate scans) {s s' : ParallelState}
    {t : Nat} {th : ScanThread} (hth : s.threads[t]? = some th) (hcancelled : s.cancelled = false)
    (hstep : ps.stepThread build predicate s t th = .ok s') :
    s'.cancelled = false ∧ s'.threads.length = s.threads.length ∧ ps.total scans s' = ps.total scans s ∧
      (∀ k ∈ s'.scanned, k ∈ s.scanned ∨ ∃ seg scan, ps.segments[k]? = some seg ∧
        scanSegment build seg ps.context predicate = .ok scan) ∧
      (¬ ps.Left s th → ps.work scans s = ps.work scans s' + 1) := by
  obtain ⟨index, scan, stats⟩ := th
  cases scan with
  | some scan =>
    obtain ⟨counters, batches⟩ := scan
    cases batches with
    | cons batch rest =>
      cases hstep
      refine ⟨hcancelled, List.length_set, total_of_move (x := ({batch}, 0, 0)) hth rfl ?_ ?_,
        fun _ => .inl, fun _ => work_of_move hth rfl ?_⟩
      · simp [hcancelled, ← Multiset.coe_add]
      · simp only [threadYield, ← add_assoc, Prod.mk_add_mk, Multiset.singleton_add, Multiset.cons_coe,
          zero_add]
      · simp only [threadWork, List.length_cons]
        omega
    | nil =>
      cases hstep
      refine ⟨hcancelled, List.length_set, total_of_move (x := 0) hth rfl (add_zero _).symm ?_,
        fun _ => .inl, fun _ => work_of_move hth rfl ?_⟩
      · simp only [threadYield, zero_add, Multiset.coe_nil]
      · simp only [threadWork, List.length_nil, Nat.zero_add]
  | none =>
    simp only [stepThread, hcancelled, Bool.false_eq_true, if_false] at hstep
    cases hseg : ps.segments[index]? with
    | none =>
      rw [hseg] at hstep
      cases hstep
      exact ⟨hcancelled, rfl, rfl, fun _ => .inl, fun hleft =>
        absurd ⟨rfl, .inr (List.getElem?_eq_none_iff.mp hseg)⟩ hleft⟩
    | some seg =>
      rw [hseg] at hstep
      obtain ⟨scan, hscan, hstep⟩ := bind_eq_ok.mp hstep
      cases hstep
      have hlt := (List.getElem?_eq_some_iff.mp hseg).1
      have hget := hlists index seg scan hseg hscan
      refine ⟨rfl, List.length_set, total_of_move (x := (0, {index}, 0)) hth rfl ?_ ?_, fun k hk => ?_,
        fun _ => work_of_move hth rfl ?_⟩
      · simp [← Multiset.coe_add]
      · simp only [threadYield, sum_stride_of_lt hn hlt, segmentYield, hget, ← add_assoc, Prod.mk_add_mk,
          zero_add, add_zero]
      · rcases List.mem_append.mp hk with hk | hk
        · exact .inl hk
        · cases List.mem_singleton.mp hk
          exact .inr ⟨seg, scan, hseg, hscan⟩
      · simp only [threadWork, sum_stride_of_lt hn hlt, hget]
        omega

/-! ### Any schedule -/

/-- A state of a run nobody cancelled. -/
structure Reached (build : Build) (ps : ParallelScanner) (predicate : Predicate)
    (scans : List (ScanStats × List Batch)) (s : ParallelState) : Prop where
  running : s.cancelled = false
  threads : s.threads.length = ps.numThreads
  total : ps.total scans s = ∑ k ∈ Finset.range ps.segments.length, segmentYield scans k
  returned : ∀ k ∈ s.scanned, ∃ seg scan, ps.segments[k]? = some seg ∧
    scanSegment build seg ps.context predicate = .ok scan

theorem reached_start (hn : 0 < ps.numThreads) : Reached build ps predicate scans ps.start := by
  refine ⟨rfl, by simp [start], ?_, fun k hk => absurd hk List.not_mem_nil⟩
  rw [← sum_strides hn, ← sum_map_range, ParallelScanner.total, start, List.map_map]
  simp only [Function.comp_def, threadYield]
  simp only [Multiset.coe_nil, ← Prod.zero_eq_mk, zero_add]

section Lists
variable (hn : 0 < ps.numThreads) (hlists : Lists build ps predicate scans)
include hn hlists

theorem Reached.stepThread {s s' : ParallelState} (h : Reached build ps predicate scans s) {t : Nat}
    {th : ScanThread} (hth : s.threads[t]? = some th) (hstep : ps.stepThread build predicate s t th = .ok s') :
    Reached build ps predicate scans s' := by
  obtain ⟨hrunning, hlen, htotal, hreturned, -⟩ := thread_step hn hlists hth h.running hstep
  exact ⟨hrunning, hlen.trans h.threads, htotal.trans h.total, fun k hk => (hreturned k hk).elim (h.returned k) id⟩

theorem run_reached {events : List ParallelEvent} (hevents : .cancel ∉ events) {s : ParallelState}
    (hrun : ps.run build predicate events = .ok s) : Reached build ps predicate scans s := by
  induction events using List.reverseRecOn generalizing s with
  | nil =>
    cases hrun
    exact reached_start hn
  | append_singleton before event ih =>
    rw [run, List.foldlM_append] at hrun
    obtain ⟨s₁, hbefore, hrun⟩ := bind_eq_ok.mp hrun
    obtain ⟨s₂, hstep, hrun⟩ := bind_eq_ok.mp hrun
    cases hrun
    have h := ih (fun h => hevents (List.mem_append_left _ h)) hbefore
    cases event with
    | cancel => exact absurd (List.mem_append_right _ List.mem_cons_self) hevents
    | thread t =>
      rw [ParallelScanner.step] at hstep
      cases hth : s₁.threads[t]? with
      | none =>
        rw [hth] at hstep
        cases hstep
        exact h
      | some th =>
        rw [hth] at hstep
        exact h.stepThread hn hlists hth hstep

end Lists

/-! ### Runs that go through -/

section Scans
variable (hscans : ps.segments.mapM (fun seg => scanSegment build seg ps.context predicate) = .ok scans)
include hscans

theorem scan_get {i : Nat} {seg : Segment} (hi : ps.segments[i]? = some seg) :
    scanSegment build seg ps.context predicate = .ok (scans.getD i ({}, [])) := by
  obtain ⟨hlen, hall⟩ := List.forall₂_iff_get.mp (mapM_eq_ok.mp hscans)
  obtain ⟨hlt, rfl⟩ := List.getElem?_eq_some_iff.mp hi
  rw [List.getD_eq_getElem _ _ (hlen ▸ hlt)]
  exact hall i hlt (hlen ▸ hlt)

theorem lists_scans : Lists build ps predicate scans := by
  intro i seg scan hi hscan
  exact Except.ok.inj ((scan_get hscans hi).symm.trans hscan)

theorem stepThread_ok (s : ParallelState) (t : Nat) (th : ScanThread) :
    ∃ s', ps.stepThread build predicate s t th = .ok s' := by
  unfold stepThread
  split
  · exact ⟨_, rfl⟩
  · exact ⟨_, rfl⟩
  · split
    · exact ⟨_, rfl⟩
    · split
      · exact ⟨_, rfl⟩
      · next seg hseg => exact ⟨_, by rw [scan_get hscans hseg]; rfl⟩

theorem step_ok (s : ParallelState) (event : ParallelEvent) :
    ∃ s', ps.step build predicate s event = .ok s' := by
  cases event with
  | cancel => exact ⟨_, rfl⟩
  | thread t =>
    rw [ParallelScanner.step]
    cases s.threads[t]? with
    | none => exact ⟨s, rfl⟩
    | some th => exact stepThread_ok hscans s t th

theorem run_ok (events : List ParallelEvent) : ∃ s, ps.run build predicate events = .ok s :=
  exists_foldlM_ok (fun event _ s => step_ok hscans s event) ps.start

/-- Threads can always go on until all are done. -/
theorem Reached.finish (hn : 0 < ps.numThreads) {s : ParallelState} (h : Reached build ps predicate scans s) :
    ∃ more : List ParallelEvent, .cancel ∉ more ∧
      ∃ s', more.foldlM (ps.step build predicate) s = .ok s' ∧ ps.Finished s' := by
  generalize hwork : ps.work scans s = w
  induction w using Nat.strong_induction_on generalizing s with
  | h w ih =>
    by_cases hfinished : ps.Finished s
    · exact ⟨[], List.not_mem_nil, s, rfl, hfinished⟩
    · rw [Finished] at hfinished
      push Not at hfinished
      obtain ⟨th, hmem, hleft⟩ := hfinished
      obtain ⟨t, hth⟩ := List.mem_iff_getElem?.mp hmem
      obtain ⟨s₁, hstep⟩ := stepThread_ok hscans s t th
      obtain ⟨-, -, -, -, hless⟩ := thread_step hn (lists_scans hscans) hth h.running hstep
      have hwork₁ := hless hleft
      obtain ⟨more, hmore, s', hrest, hdone⟩ := ih (ps.work scans s₁) (by omega)
        (h.stepThread hn (lists_scans hscans) hth hstep) rfl
      refine ⟨.thread t :: more, ?_, s', ?_, hdone⟩
      · simpa using hmore
      · rw [List.foldlM_cons, ParallelScanner.step, hth]
        exact bind_eq_ok.mpr ⟨s₁, hstep, hrest⟩

end Scans

end Step

/-! ### When all threads are done -/

theorem sum_stats (l : List ScanStats) : (l.map fun a => ((0, 0, a) : Yield)).sum = (0, 0, l.sum) := by
  induction l with
  | nil => rfl
  | cons a rest ih =>
    rw [List.map_cons, List.sum_cons, ih, List.sum_cons, Prod.mk_add_mk, Prod.mk_add_mk, add_zero, add_zero]

/-- A thread that has left its loop has nothing but its counters. -/
theorem threadYield_left {s : ParallelState} (hrunning : s.cancelled = false) {th : ScanThread}
    (h : ps.Left s th) : ps.threadYield scans th = (0, 0, th.stats) := by
  obtain ⟨hscan, hcancelled | hindex⟩ := h
  · rw [hrunning] at hcancelled
    cases hcancelled
  · rw [threadYield, hscan]
    simp only [stride_of_ge hindex, Finset.sum_empty, add_zero]

/-- What was delivered when all threads are done. -/
theorem Reached.finished {build : Build} {predicate : Predicate} {s : ParallelState}
    (hlen : scans.length = ps.segments.length) (h : Reached build ps predicate scans s) (hfinished : ps.Finished s) :
    s.output.Perm (scans.flatMap Prod.snd) ∧ s.scanned.Perm (List.range ps.segments.length) ∧
      stats s = (scans.map Prod.fst).sum := by
  have hthreads : s.threads.map (ps.threadYield scans) =
      (s.threads.map ScanThread.stats).map fun a => ((0, 0, a) : Yield) := by
    rw [List.map_map]
    exact List.map_congr_left fun th hth => threadYield_left h.running (hfinished th hth)
  have htotal := h.total
  rw [ParallelScanner.total, hthreads, sum_stats, Prod.mk_add_mk, Prod.mk_add_mk, add_zero, add_zero,
    zero_add, ← hlen] at htotal
  obtain ⟨houtput, hrest⟩ := Prod.ext_iff.mp htotal
  obtain ⟨hscanned, hstats⟩ := Prod.ext_iff.mp hrest
  rw [Prod.fst_sum] at houtput
  rw [Prod.snd_sum, Prod.fst_sum] at hscanned
  rw [Prod.snd_sum, Prod.snd_sum] at hstats
  refine ⟨Multiset.coe_eq_coe.mp ?_, Multiset.coe_eq_coe.mp ?_, ?_⟩
  · have hbatches := sum_range_getD (fun scan : ScanStats × List Batch => (scan.2 : Multiset Batch)) scans ({}, [])
    exact (houtput.trans hbatches).trans (Multiset.coe_bind scans Prod.snd)
  · rw [← hlen]
    exact hscanned.trans (Finset.sum_multiset_singleton _)
  · have hcounters := sum_range_getD (fun scan : ScanStats × List Batch => scan.1) scans ({}, [])
    rw [stats, ← List.sum_eq_foldl]
    exact hstats.trans hcounters

/-- A schedule nobody cancels that ends with all threads done. -/
def Completes (build : Build) (ps : ParallelScanner) (predicate : Predicate) (events : List ParallelEvent)
    (s : ParallelState) : Prop :=
  .cancel ∉ events ∧ ps.run build predicate events = .ok s ∧ ps.Finished s

/-- A completed run has every segment's scan, once. -/
theorem Completes.delivers {build : Build} {predicate : Predicate} {events : List ParallelEvent}
    {s : ParallelState} (h : Completes build ps predicate events s) (hn : 0 < ps.numThreads) :
    ∃ scans, ps.segments.mapM (fun seg => scanSegment build seg ps.context predicate) = .ok scans ∧
      s.output.Perm (scans.flatMap Prod.snd) ∧ s.scanned.Perm (List.range ps.segments.length) ∧
      stats s = (scans.map Prod.fst).sum := by
  obtain ⟨hevents, hrun, hfinished⟩ := h
  -- The list of results with a filler for scans that fault; none is used.
  have hfilled : Lists build ps predicate (ps.segments.map fun seg =>
      (scanSegment build seg ps.context predicate).toOption.getD ({}, [])) := by
    intro i seg scan hi hscan
    simp [List.getD_eq_getElem?_getD, hi, hscan, Except.toOption]
  have hreached := run_reached hn hfilled hevents hrun
  obtain ⟨-, hscanned, -⟩ := hreached.finished (List.length_map _) hfinished
  have hall : ∀ seg ∈ ps.segments, ∃ scan, scanSegment build seg ps.context predicate = .ok scan := by
    intro seg hseg
    obtain ⟨k, hk, rfl⟩ := List.getElem_of_mem hseg
    obtain ⟨seg', scan, hget, hscan⟩ := hreached.returned k (hscanned.mem_iff.mpr (List.mem_range.mpr hk))
    rw [List.getElem?_eq_getElem hk] at hget
    cases hget
    exact ⟨scan, hscan⟩
  obtain ⟨scans, hscans⟩ := exists_mapM_ok hall
  have hlen : scans.length = ps.segments.length := (mapM_eq_ok.mp hscans).length_eq.symm
  exact ⟨scans, hscans, (run_reached hn (lists_scans hscans) hevents hrun).finished hlen hfinished⟩

variable (ps) in
/-- A run of scans that return can be completed. -/
theorem exists_completes {build : Build} {predicate : Predicate} (hn : 0 < ps.numThreads)
    (hall : ∀ seg ∈ ps.segments, ∃ scan, scanSegment build seg ps.context predicate = .ok scan)
    {events : List ParallelEvent} (hevents : .cancel ∉ events) :
    ∃ more s, Completes build ps predicate (events ++ more) s := by
  obtain ⟨scans, hscans⟩ := exists_mapM_ok hall
  obtain ⟨s, hrun⟩ := run_ok hscans events
  have hreached := run_reached hn (lists_scans hscans) hevents hrun
  obtain ⟨more, hmore, s', hrest, hfinished⟩ := hreached.finish hscans hn
  refine ⟨more, s', ?_, ?_, hfinished⟩
  · simp [hevents, hmore]
  · rw [run, List.foldlM_append, ← run, hrun]
    exact hrest

end ParallelScanner

open ParallelScanner in
/-- **Whatever the number of threads and the schedule, a completed parallel scan delivers
the batches of the segments' scans, each segment scanned once, and its counters are their
sums**; so two completed scans deliver the same. When the segments' scans return, every
schedule goes through and can be completed. -/
theorem parallel_delivers (build : Build) (segments : List Segment) (context : ScanContext)
    (predicate : Predicate) (numThreads : Nat) (hn : 1 ≤ numThreads) :
    (∀ events s, Completes build ⟨segments, context, numThreads⟩ predicate events s →
      ∃ scans, segments.mapM (fun seg => scanSegment build seg context predicate) = .ok scans ∧
        s.output.Perm (scans.flatMap Prod.snd) ∧ s.scanned.Perm (List.range segments.length) ∧
        stats s = (scans.map Prod.fst).sum) ∧
    (∀ numThreads', 1 ≤ numThreads' → ∀ events events' s s',
      Completes build ⟨segments, context, numThreads⟩ predicate events s →
      Completes build ⟨segments, context, numThreads'⟩ predicate events' s' →
      s.output.Perm s'.output ∧ stats s = stats s') ∧
    ((∀ seg ∈ segments, ∃ scan, scanSegment build seg context predicate = .ok scan) →
      ∀ events, .cancel ∉ events → ∃ more s,
        Completes build ⟨segments, context, numThreads⟩ predicate (events ++ more) s) := by
  refine ⟨fun events s h => h.delivers hn, fun numThreads' hn' events events' s s' h h' => ?_,
    fun hall events hevents => exists_completes ⟨segments, context, numThreads⟩ hn hall hevents⟩
  obtain ⟨scans, hscans, houtput, -, hstats⟩ := h.delivers hn
  obtain ⟨scans', hscans', houtput', -, hstats'⟩ := h'.delivers hn'
  cases hscans.symm.trans hscans'
  exact ⟨houtput.trans houtput'.symm, hstats.trans hstats'.symm⟩

open ParallelScanner IntactSegment in
/-- Three threads for two segments. -/
theorem sample_parallel :
    ∃ events s, Completes .scalar ⟨[sample.segment, sample.segment], .unpruned 2, 3⟩ sampleChain.predicate events s ∧
      s.scanned.Perm (List.range 2) := by
  obtain ⟨hdelivers, -, hcompletes⟩ := parallel_delivers .scalar [sample.segment, sample.segment]
    (.unpruned 2) sampleChain.predicate 3 (by decide)
  have hscan : (scanSegment .scalar sample.segment (.unpruned 2) sampleChain.predicate).toOption.isSome = true := by
    decide +kernel
  have hall : ∀ seg ∈ [sample.segment, sample.segment],
      ∃ scan, scanSegment .scalar seg (.unpruned 2) sampleChain.predicate = .ok scan := by
    intro seg hseg
    rw [show seg = sample.segment by simpa using hseg]
    cases h : scanSegment .scalar sample.segment (.unpruned 2) sampleChain.predicate with
    | ok scan => exact ⟨scan, rfl⟩
    | error e =>
      rw [h] at hscan
      cases hscan
  obtain ⟨more, s, hdone⟩ := hcompletes hall [] List.not_mem_nil
  obtain ⟨-, -, -, hscanned, -⟩ := hdelivers _ s hdone
  exact ⟨_, s, hdone, hscanned⟩

end ColumnarStore.Scanner
