import ColumnarStore.Scanner.Accounting
import ColumnarStore.Scanner.Parallel

/-! A scan that is cancelled.

`Cancel` sets a flag. A thread looks at it at the head of its loop and before every call
of the output function, and goes on by what it saw: between the look and the step that
follows, the flag may be set. So a cancelled scan starts and delivers no more than what
threads were on the way to (`cancel_stops`), and wherever it is cancelled nothing is
delivered twice and the counters are those of the segments that were scanned
(`cancelled_scan_accounts`): they count rows that were not passed on as well. -/
namespace ColumnarStore.Scanner
open Foundation Predicates

/-! ### Threads that look before they go on -/

/-- Where a thread is: at the head of its loop; past the look at the flag, with a segment to
scan; in the scan, with the batches still to come; past the look, with a batch to pass on;
out of the loop. -/
inductive ScanPhase where
  | looping (index : Nat)
  | starting (index : Nat)
  | scanning (index : Nat) (stats : ScanStats) (batches : List Batch)
  | passing (index : Nat) (stats : ScanStats) (batch : Batch) (rest : List Batch)
  | left

namespace ScanPhase

def passes : ScanPhase → Nat
  | passing .. => 1
  | _ => 0

def starts : ScanPhase → Nat
  | starting _ => 1
  | _ => 0

end ScanPhase

structure CancelThread where
  phase : ScanPhase
  stats : ScanStats := 0

/-- `dropped` has the batches that were not passed on. -/
structure CancelState where
  threads : List CancelThread
  cancelled : Bool := false
  output : List Batch := []
  dropped : List Batch := []
  scanned : List Nat := []

namespace ParallelScanner

def startCancellable (ps : ParallelScanner) : CancelState where
  threads := (List.range ps.numThreads).map fun t => {phase := .looping t}

/-- One step of a thread: a look at the flag, or what follows it. -/
def stepPhase (build : Build) (ps : ParallelScanner) (predicate : Predicate) (s : CancelState) (t : Nat)
    (th : CancelThread) : Outcome CancelState :=
  match th.phase with
  | .looping index => .ok {s with
      threads := s.threads.set t {th with
        phase := if ps.segments.length ≤ index ∨ s.cancelled = true then .left else .starting index}}
  | .starting index => do
    let seg ← orFault .outOfBounds ps.segments[index]?
    let (stats, batches) ← scanSegment build seg ps.context predicate
    return {s with
      threads := s.threads.set t {th with phase := .scanning index stats batches}
      scanned := s.scanned ++ [index]}
  | .scanning index stats (batch :: rest) =>
    if s.cancelled then .ok {s with
      threads := s.threads.set t {th with phase := .scanning index stats rest}
      dropped := s.dropped ++ [batch]}
    else .ok {s with threads := s.threads.set t {th with phase := .passing index stats batch rest}}
  | .scanning index stats [] => .ok {s with
      threads := s.threads.set t {phase := .looping (index + ps.numThreads), stats := th.stats + stats}}
  | .passing index stats batch rest => .ok {s with
      threads := s.threads.set t {th with phase := .scanning index stats rest}
      output := s.output ++ [batch]}
  | .left => .ok s

def stepCancellable (build : Build) (ps : ParallelScanner) (predicate : Predicate) (s : CancelState) :
    ParallelEvent → Outcome CancelState
  | .thread t =>
    match s.threads[t]? with
    | none => .ok s
    | some th => ps.stepPhase build predicate s t th
  | .cancel => .ok {s with cancelled := true}

def runCancellable (build : Build) (ps : ParallelScanner) (predicate : Predicate) (events : List ParallelEvent) :
    Outcome CancelState :=
  events.foldlM (ps.stepCancellable build predicate) ps.startCancellable

end ParallelScanner

namespace CancelState

/-- All threads can be joined. -/
def Finished (s : CancelState) : Prop := ∀ th ∈ s.threads, th.phase = .left

/-- `Stats` when they are. -/
def stats (s : CancelState) : ScanStats := (s.threads.map CancelThread.stats).foldl (· + ·) 0

/-- The threads on the way to a call of the output function. -/
def passing (s : CancelState) : Nat := (s.threads.map fun th => th.phase.passes).sum

/-- The threads on the way to the scan of a segment. -/
def starting (s : CancelState) : Nat := (s.threads.map fun th => th.phase.starts).sum

end CancelState

/-! ### What a scan counts -/

/-- A segment's scan counts the rows it hands out. -/
theorem rowsReturned_scanSegment {build : Build} {seg : Segment} {context : ScanContext} {predicate : Predicate}
    {stats : ScanStats} {batches : List Batch}
    (h : scanSegment build seg context predicate = .ok (stats, batches)) :
    stats.rowsReturned = deliveredRows batches := by
  obtain ⟨sc, hnew, h⟩ := bind_eq_ok.mp h
  obtain ⟨⟨sc', batches'⟩, hscan, h⟩ := bind_eq_ok.mp h
  cases h
  have hfresh : sc.stats = {} := by
    obtain ⟨scanners, -, hmade⟩ := bind_eq_ok.mp hnew
    cases hmade
    rfl
  unfold SegmentScanner.scan at hscan
  split at hscan
  · cases hscan
  · obtain ⟨columns, -, hscan⟩ := bind_eq_ok.mp hscan
    obtain ⟨p, hrun, hscan⟩ := bind_eq_ok.mp hscan
    cases hscan
    have hstep : ∀ (block : Nat) (p p' : SegmentScanner.Progress),
        (∃ scanned skipped, Balanced scanned (deliveredRows p.batches) skipped p.stats) →
        sc.scanBlock build predicate columns p block = .ok p' →
        ∃ scanned skipped, Balanced scanned (deliveredRows p'.batches) skipped p'.stats := by
      intro block p p' hp hok
      obtain ⟨scanned, skipped, hp⟩ := hp
      rw [← Nat.zero_add (deliveredRows _)] at hp
      have hnext := hp.scanBlock hok
      rw [Nat.zero_add] at hnext
      exact ⟨_, _, hnext⟩
    have hbalanced : ∃ scanned skipped, Balanced scanned (deliveredRows p.batches) skipped p.stats :=
      foldlM_preserves (fun block _ => hstep block) ⟨0, 0, hfresh ▸ balanced_new⟩ hrun
    obtain ⟨scanned, skipped, hbalanced⟩ := hbalanced
    exact hbalanced.rowsReturned

/-! ### What a step can do -/

/-- From phase to phase, with the counters, the batches passed on, the batches dropped and
the segments entered. -/
inductive Move (build : Build) (ps : ParallelScanner) (predicate : Predicate) (cancelled : Bool) :
    ScanPhase → ScanPhase → ScanStats → List Batch → List Batch → List Nat → Prop where
  | finish (index : Nat) (hend : ps.segments.length ≤ index) :
      Move build ps predicate cancelled (.looping index) .left 0 [] [] []
  | giveUp (index : Nat) (hcancelled : cancelled = true) :
      Move build ps predicate cancelled (.looping index) .left 0 [] [] []
  | start (index : Nat) (hlt : index < ps.segments.length) (hrunning : cancelled = false) :
      Move build ps predicate cancelled (.looping index) (.starting index) 0 [] [] []
  | enter (index : Nat) (seg : Segment) (stats : ScanStats) (batches : List Batch)
      (hseg : ps.segments[index]? = some seg)
      (hscan : scanSegment build seg ps.context predicate = .ok (stats, batches)) :
      Move build ps predicate cancelled (.starting index) (.scanning index stats batches) 0 [] [] [index]
  | look (index : Nat) (stats : ScanStats) (batch : Batch) (rest : List Batch) (hrunning : cancelled = false) :
      Move build ps predicate cancelled (.scanning index stats (batch :: rest)) (.passing index stats batch rest)
        0 [] [] []
  | drop (index : Nat) (stats : ScanStats) (batch : Batch) (rest : List Batch) (hcancelled : cancelled = true) :
      Move build ps predicate cancelled (.scanning index stats (batch :: rest)) (.scanning index stats rest)
        0 [] [batch] []
  | pass (index : Nat) (stats : ScanStats) (batch : Batch) (rest : List Batch) :
      Move build ps predicate cancelled (.passing index stats batch rest) (.scanning index stats rest)
        0 [batch] [] []
  | next (index : Nat) (stats : ScanStats) :
      Move build ps predicate cancelled (.scanning index stats []) (.looping (index + ps.numThreads)) stats [] [] []

section Step
variable {build : Build} {ps : ParallelScanner} {predicate : Predicate} {s s' : CancelState} {t : Nat}
  {th : CancelThread}

/-- A thread out of its loop does nothing, any other makes a move. -/
theorem stepPhase_cases (hstep : ps.stepPhase build predicate s t th = .ok s') :
    (th.phase = .left ∧ s' = s) ∨ ∃ phase counted passed dropped entered,
      Move build ps predicate s.cancelled th.phase phase counted passed dropped entered ∧
      s' = {
        threads := s.threads.set t ⟨phase, th.stats + counted⟩
        cancelled := s.cancelled
        output := s.output ++ passed
        dropped := s.dropped ++ dropped
        scanned := s.scanned ++ entered } := by
  obtain ⟨phase, stats⟩ := th
  cases phase with
  | left =>
    cases hstep
    exact .inl ⟨rfl, rfl⟩
  | looping index =>
    cases hstep
    simp only [reduceCtorEq, false_and, false_or]
    by_cases hend : ps.segments.length ≤ index
    · exact ⟨_, _, _, _, _, .finish index hend, by simp [hend]⟩
    · cases hcancelled : s.cancelled with
      | true => exact ⟨_, _, _, _, _, .giveUp index rfl, by simp⟩
      | false => exact ⟨_, _, _, _, _, .start index (not_le.mp hend) rfl, by simp [hend]⟩
  | starting index =>
    obtain ⟨seg, hseg, hstep⟩ := bind_eq_ok.mp hstep
    obtain ⟨⟨counters, batches⟩, hscan, hstep⟩ := bind_eq_ok.mp hstep
    cases hstep
    exact .inr ⟨_, _, _, _, _, .enter index seg counters batches (orFault_eq_ok.mp hseg) hscan, by simp⟩
  | scanning index counters batches =>
    cases batches with
    | nil =>
      cases hstep
      exact .inr ⟨_, _, _, _, _, .next index counters, by simp⟩
    | cons batch later =>
      unfold ParallelScanner.stepPhase at hstep
      cases hcancelled : s.cancelled with
      | true =>
        simp only [hcancelled, if_true] at hstep
        cases hstep
        exact .inr ⟨_, _, _, _, _, .drop index counters batch later rfl, by simp⟩
      | false =>
        simp only [hcancelled, Bool.false_eq_true, if_false] at hstep
        cases hstep
        exact .inr ⟨_, _, _, _, _, .look index counters batch later rfl, by simp⟩
  | passing index counters batch later =>
    cases hstep
    exact .inr ⟨_, _, _, _, _, .pass index counters batch later, by simp⟩

end Step

/-! ### The books -/

/-- Batches, counters and numbers of segments. -/
abbrev Books := Multiset Batch × ScanStats × Multiset Nat

namespace ParallelScanner
variable (build : Build) (ps : ParallelScanner) (predicate : Predicate)

/-- What the scan of a segment comes to, if it returns. -/
def scanOf (k : Nat) : ScanStats × List Batch :=
  match ps.segments[k]? with
  | none => ({}, [])
  | some seg => (scanSegment build seg ps.context predicate).toOption.getD ({}, [])

/-- What the scans of segments come to, beside their numbers. -/
def yields (scanned : List Nat) : Books :=
  (scanned.map fun k => (((ps.scanOf build predicate k).2 : Multiset Batch), (ps.scanOf build predicate k).1,
    (0 : Multiset Nat))).sum

/-- What the thread has still to pass on, what its scan has counted, and the segments it
has still to scan. -/
def owes : ScanPhase → Books
  | .looping index => (0, 0, ∑ k ∈ stride ps.numThreads ps.segments.length index, {k})
  | .starting index => (0, 0, ∑ k ∈ stride ps.numThreads ps.segments.length index, {k})
  | .scanning index stats batches =>
    ((batches : Multiset Batch), stats, ∑ k ∈ stride ps.numThreads ps.segments.length (index + ps.numThreads), {k})
  | .passing index stats batch rest =>
    (((batch :: rest : List Batch) : Multiset Batch), stats,
      ∑ k ∈ stride ps.numThreads ps.segments.length (index + ps.numThreads), {k})
  | .left => 0

def threadBooks (th : CancelThread) : Books := (0, th.stats, 0) + ps.owes th.phase

/-- What was passed on or dropped, counted and scanned, and what the threads owe. -/
def books (s : CancelState) : Books :=
  ((s.output : Multiset Batch) + (s.dropped : Multiset Batch), 0, (s.scanned : Multiset Nat)) +
    (s.threads.map ps.threadBooks).sum

variable {build ps predicate}

theorem yields_append (a b : List Nat) :
    ps.yields build predicate (a ++ b) = ps.yields build predicate a + ps.yields build predicate b := by
  rw [yields, List.map_append, List.sum_append, ← yields, ← yields]

theorem scanOf_eq {k : Nat} {seg : Segment} {scan : ScanStats × List Batch} (hseg : ps.segments[k]? = some seg)
    (hscan : scanSegment build seg ps.context predicate = .ok scan) : ps.scanOf build predicate k = scan := by
  rw [scanOf, hseg]
  simp only [hscan, Except.toOption, Option.getD_some]

/-- What a phase comes to, and what a cancelled thread gives up. -/
theorem Move.owes {cancelled : Bool} {phase phase' : ScanPhase} {counted : ScanStats} {passed dropped : List Batch}
    {entered : List Nat} (hn : 0 < ps.numThreads)
    (h : Move build ps predicate cancelled phase phase' counted passed dropped entered) :
    ∃ skipped : Multiset Nat, (cancelled = false → skipped = 0) ∧
      ps.owes phase + ps.yields build predicate entered =
        ((passed : Multiset Batch) + (dropped : Multiset Batch), counted, (entered : Multiset Nat) + skipped) +
          ps.owes phase' := by
  cases h with
  | finish index hend =>
    refine ⟨0, fun _ => rfl, ?_⟩
    simp only [ParallelScanner.owes, stride_of_ge hend, Finset.sum_empty]
    rfl
  | giveUp index hcancelled =>
    refine ⟨∑ k ∈ stride ps.numThreads ps.segments.length index, {k}, fun h => ?_, ?_⟩
    · rw [hcancelled] at h
      cases h
    · simp [ParallelScanner.owes, yields]
  | start index hlt hrunning =>
    refine ⟨0, fun _ => rfl, ?_⟩
    simp [ParallelScanner.owes, yields]
  | enter index seg stats batches hseg hscan =>
    refine ⟨0, fun _ => rfl, ?_⟩
    have hlt := (List.getElem?_eq_some_iff.mp hseg).1
    simp [ParallelScanner.owes, yields, scanOf_eq hseg hscan, sum_stride_of_lt hn hlt]
  | look index stats batch rest hrunning =>
    refine ⟨0, fun _ => rfl, ?_⟩
    simp [ParallelScanner.owes, yields]
  | drop index stats batch rest hcancelled =>
    refine ⟨0, fun _ => rfl, ?_⟩
    simp [ParallelScanner.owes, yields]
  | pass index stats batch rest =>
    refine ⟨0, fun _ => rfl, ?_⟩
    simp [ParallelScanner.owes, yields]
  | next index stats =>
    refine ⟨0, fun _ => rfl, ?_⟩
    simp [ParallelScanner.owes, yields]

/-- Only scans that return are entered. -/
theorem Move.returns {cancelled : Bool} {phase phase' : ScanPhase} {counted : ScanStats} {passed dropped : List Batch}
    {entered : List Nat} (h : Move build ps predicate cancelled phase phase' counted passed dropped entered) {k : Nat}
    (hk : k ∈ entered) : ∃ seg, ps.segments[k]? = some seg ∧
      scanSegment build seg ps.context predicate = .ok (ps.scanOf build predicate k) := by
  cases h with
  | enter index seg stats batches hseg hscan =>
    rw [List.mem_singleton.mp hk, scanOf_eq hseg hscan]
    exact ⟨seg, hseg, hscan⟩
  | _ => exact absurd hk List.not_mem_nil

/-- Only a cancelled scan drops batches. -/
theorem Move.keepsAll {cancelled : Bool} {phase phase' : ScanPhase} {counted : ScanStats} {passed dropped : List Batch}
    {entered : List Nat} (h : Move build ps predicate cancelled phase phase' counted passed dropped entered)
    (hrunning : cancelled = false) : dropped = [] := by
  cases h with
  | drop index stats batch rest hcancelled => exact absurd (hcancelled.symm.trans hrunning) Bool.noConfusion
  | _ => rfl

/-- A thread goes to the scan of a segment that is there. -/
theorem Move.started {cancelled : Bool} {phase phase' : ScanPhase} {counted : ScanStats} {passed dropped : List Batch}
    {entered : List Nat} (h : Move build ps predicate cancelled phase phase' counted passed dropped entered)
    {index : Nat} (hphase : phase' = .starting index) : index < ps.segments.length := by
  cases h with
  | start index' hlt hrunning =>
    cases hphase
    exact hlt
  | _ => cases hphase

/-- The scans that were entered account for all that was passed on, dropped and counted. -/
structure Kept (build : Build) (ps : ParallelScanner) (predicate : Predicate) (s : CancelState) : Prop where
  threads : s.threads.length = ps.numThreads
  books : ∃ skipped : Multiset Nat, (s.cancelled = false → skipped = 0) ∧
    ps.books s + (0, 0, skipped) =
      ps.yields build predicate s.scanned + (0, 0, ∑ k ∈ Finset.range ps.segments.length, {k})
  scanned : ∀ k ∈ s.scanned, ∃ seg, ps.segments[k]? = some seg ∧
    scanSegment build seg ps.context predicate = .ok (ps.scanOf build predicate k)
  dropped : s.cancelled = false → s.dropped = []
  started : ∀ th ∈ s.threads, ∀ index, th.phase = .starting index → index < ps.segments.length

theorem kept_start (hn : 0 < ps.numThreads) : Kept build ps predicate ps.startCancellable := by
  refine ⟨by simp [startCancellable], ⟨0, fun _ => rfl, ?_⟩, fun k hk => absurd hk List.not_mem_nil, fun _ => rfl,
    fun th hth index hphase => ?_⟩
  swap
  · obtain ⟨t, -, rfl⟩ := List.mem_map.mp hth
    cases hphase
  have howed : ((List.range ps.numThreads).map fun t => ps.threadBooks {phase := .looping t}).sum =
      (0, 0, ∑ k ∈ Finset.range ps.segments.length, {k}) := by
    rw [sum_map_range, ← sum_strides hn ps.segments.length]
    simp only [threadBooks, owes, Prod.ext_iff, Prod.fst_sum, Prod.snd_sum, Prod.fst_add, Prod.snd_add, zero_add,
      add_zero, Finset.sum_const_zero, true_and]
  rw [ParallelScanner.books, startCancellable, List.map_map, Function.comp_def, howed]
  simp [yields]

/-- One step keeps the books. -/
theorem Kept.step {s s' : CancelState} (hn : 0 < ps.numThreads) (h : Kept build ps predicate s) {event : ParallelEvent}
    (hstep : ps.stepCancellable build predicate s event = .ok s') : Kept build ps predicate s' := by
  obtain ⟨hthreads, ⟨skipped, hrunning, hbooks⟩, hscanned, hdropped, hstarted⟩ := h
  cases event with
  | cancel =>
    cases hstep
    exact ⟨hthreads, ⟨skipped, fun h => (Bool.noConfusion h), hbooks⟩, hscanned, fun h => (Bool.noConfusion h),
      hstarted⟩
  | thread t =>
    rw [stepCancellable] at hstep
    cases hth : s.threads[t]? with
    | none =>
      rw [hth] at hstep
      cases hstep
      exact ⟨hthreads, ⟨skipped, hrunning, hbooks⟩, hscanned, hdropped, hstarted⟩
    | some th =>
      rw [hth] at hstep
      rcases stepPhase_cases hstep with ⟨-, rfl⟩ | ⟨phase, counted, passed, dropped, entered, hmove, rfl⟩
      · exact ⟨hthreads, ⟨skipped, hrunning, hbooks⟩, hscanned, hdropped, hstarted⟩
      obtain ⟨given, hgiven, howes⟩ := Move.owes hn hmove
      refine ⟨List.length_set.trans hthreads, ⟨skipped + given, fun h => ?_, ?_⟩, fun k hk => ?_, fun h => ?_,
        fun th' hth' index hphase => ?_⟩
      · rw [hrunning h, hgiven h, add_zero]
      · obtain ⟨rest, hsum, hset⟩ := exists_sum_rest ps.threadBooks hth
        rw [ParallelScanner.books, hsum, threadBooks] at hbooks
        have hright : ps.yields build predicate (s.scanned ++ entered) +
            (0, 0, ∑ k ∈ Finset.range ps.segments.length, {k}) =
            ((s.output : Multiset Batch) + (s.dropped : Multiset Batch), 0, (s.scanned : Multiset Nat)) +
              ((0, th.stats, 0) + ps.owes th.phase + rest) + (0, 0, skipped) + ps.yields build predicate entered := by
          rw [yields_append, add_right_comm, ← hbooks]
        rw [ParallelScanner.books, hset, threadBooks, hright]
        obtain ⟨hbatches, hrest⟩ := Prod.ext_iff.mp howes
        obtain ⟨hstats, hsegments⟩ := Prod.ext_iff.mp hrest
        simp only [Prod.fst_add, Prod.snd_add] at hbatches hstats hsegments
        refine Prod.ext ?_ (Prod.ext ?_ ?_)
        · simp only [Prod.fst_add, zero_add, add_zero, ← Multiset.coe_add]
          calc _ = (s.output : Multiset Batch) + s.dropped + ((passed : Multiset Batch) + dropped +
                (ps.owes phase).1) + rest.1 := by abel
            _ = _ := by rw [← hbatches]; abel
        · simp only [Prod.fst_add, Prod.snd_add, zero_add, add_zero]
          calc _ = th.stats + (counted + (ps.owes phase).2.1) + rest.2.1 := by abel
            _ = _ := by rw [← hstats]; abel
        · simp only [Prod.snd_add, zero_add, ← Multiset.coe_add]
          calc _ = (s.scanned : Multiset Nat) + ((entered : Multiset Nat) + given + (ps.owes phase).2.2) +
                rest.2.2 + skipped := by abel
            _ = _ := by rw [← hsegments]; abel
      · exact (List.mem_append.mp hk).elim (hscanned k) (Move.returns hmove)
      · have hnone := Move.keepsAll hmove h
        show s.dropped ++ dropped = []
        rw [hdropped h, hnone]
        rfl
      · rcases List.mem_or_eq_of_mem_set hth' with hth' | rfl
        · exact hstarted th' hth' index hphase
        · exact Move.started hmove hphase

theorem run_kept {s : CancelState} (hn : 0 < ps.numThreads) {events : List ParallelEvent}
    (hrun : ps.runCancellable build predicate events = .ok s) : Kept build ps predicate s :=
  foldlM_preserves (fun _ _ _ _ h hstep => h.step hn hstep) (kept_start hn) hrun

/-! ### Any schedule can be finished -/

/-- The steps a thread has at most to make. -/
def workOf (build : Build) (ps : ParallelScanner) (predicate : Predicate) : ScanPhase → Nat
  | .looping index => rest index + 1
  | .starting index => rest index
  | .scanning index _ batches => 2 * batches.length + 2 + rest (index + ps.numThreads)
  | .passing index _ _ later => 2 * later.length + 3 + rest (index + ps.numThreads)
  | .left => 0
where
  rest (index : Nat) : Nat :=
    ∑ k ∈ stride ps.numThreads ps.segments.length index, (2 * (ps.scanOf build predicate k).2.length + 3)

theorem Move.work {cancelled : Bool} {phase phase' : ScanPhase} {counted : ScanStats} {passed dropped : List Batch}
    {entered : List Nat} (hn : 0 < ps.numThreads)
    (h : Move build ps predicate cancelled phase phase' counted passed dropped entered) :
    ps.workOf build predicate phase' < ps.workOf build predicate phase := by
  cases h with
  | finish index hend => exact Nat.succ_pos _
  | giveUp index hcancelled => exact Nat.succ_pos _
  | start index hlt hrunning => exact Nat.lt_succ_self _
  | enter index seg stats batches hseg hscan =>
    have hlt := (List.getElem?_eq_some_iff.mp hseg).1
    simp only [workOf, workOf.rest, sum_stride_of_lt hn hlt, scanOf_eq hseg hscan]
    omega
  | look index stats batch rest hrunning =>
    simp only [workOf, List.length_cons]
    omega
  | drop index stats batch rest hcancelled =>
    simp only [workOf, List.length_cons]
    omega
  | pass index stats batch rest =>
    simp only [workOf]
    omega
  | next index stats =>
    simp only [workOf, List.length_nil]
    omega

/-- A thread in its loop can go on when the segments' scans return. -/
theorem Kept.stepPhase_ok {s : CancelState} (h : Kept build ps predicate s)
    (hall : ∀ seg ∈ ps.segments, ∃ scan, scanSegment build seg ps.context predicate = .ok scan) {t : Nat}
    {th : CancelThread} (hth : s.threads[t]? = some th) : ∃ s', ps.stepPhase build predicate s t th = .ok s' := by
  unfold stepPhase
  cases hphase : th.phase with
  | starting index =>
    have hlt := h.started th (List.mem_of_getElem? hth) index hphase
    obtain ⟨scan, hscan⟩ := hall _ (List.getElem_mem hlt)
    simp only [List.getElem?_eq_getElem hlt, orFault_some, bind_ok, hscan]
    exact ⟨_, rfl⟩
  | scanning index stats batches =>
    cases batches with
    | nil => exact ⟨_, rfl⟩
    | cons batch rest =>
      cases s.cancelled with
      | true => exact ⟨_, rfl⟩
      | false => exact ⟨_, rfl⟩
  | _ => exact ⟨_, rfl⟩

theorem Kept.finish {s : CancelState} (hn : 0 < ps.numThreads) (h : Kept build ps predicate s)
    (hall : ∀ seg ∈ ps.segments, ∃ scan, scanSegment build seg ps.context predicate = .ok scan) :
    ∃ more : List ParallelEvent, .cancel ∉ more ∧
      ∃ s', more.foldlM (ps.stepCancellable build predicate) s = .ok s' ∧ s'.Finished := by
  generalize hwork : (s.threads.map fun th => ps.workOf build predicate th.phase).sum = w
  induction w using Nat.strong_induction_on generalizing s with
  | h w ih =>
    by_cases hfinished : s.Finished
    · exact ⟨[], List.not_mem_nil, s, rfl, hfinished⟩
    · unfold CancelState.Finished at hfinished
      push Not at hfinished
      obtain ⟨th, hmem, hin⟩ := hfinished
      obtain ⟨t, hth⟩ := List.mem_iff_getElem?.mp hmem
      obtain ⟨s₁, hstep⟩ := h.stepPhase_ok hall hth
      have hevent : ps.stepCancellable build predicate s (.thread t) = .ok s₁ := by
        rw [stepCancellable, hth]
        exact hstep
      have hless : (s₁.threads.map fun th => ps.workOf build predicate th.phase).sum < w := by
        rcases stepPhase_cases hstep with ⟨hleft, -⟩ | ⟨phase, counted, passed, dropped, entered, hmove, rfl⟩
        · exact absurd hleft hin
        · obtain ⟨rest, hsum, hset⟩ := exists_sum_rest (fun th : CancelThread => ps.workOf build predicate th.phase) hth
          have hlt := Move.work hn hmove
          rw [← hwork, hsum, hset]
          exact Nat.add_lt_add_right hlt rest
      obtain ⟨more, hmore, s', hrest, hdone⟩ := ih _ hless (h.step hn hevent) rfl
      exact ⟨.thread t :: more, by simpa using hmore, s',
        by rw [List.foldlM_cons, hevent]; exact hrest, hdone⟩

/-! ### What a schedule comes to -/

theorem yields_eq (scanned : List Nat) : ps.yields build predicate scanned =
    (((scanned.flatMap fun k => (ps.scanOf build predicate k).2 : List Batch) : Multiset Batch),
      (scanned.map fun k => (ps.scanOf build predicate k).1).sum, 0) := by
  induction scanned with
  | nil => rfl
  | cons k rest ih =>
    rw [← List.singleton_append, yields_append, ih, List.singleton_append, List.flatMap_cons, List.map_cons,
      List.sum_cons, ← Multiset.coe_add, yields, List.map_singleton, List.sum_singleton, Prod.mk_add_mk,
      Prod.mk_add_mk, add_zero]

theorem Kept.segments {s : CancelState} (h : Kept build ps predicate s) :
    (s.scanned : Multiset Nat) ≤ (List.range ps.segments.length : Multiset Nat) := by
  obtain ⟨skipped, -, hbooks⟩ := h.books
  obtain ⟨-, hrest⟩ := Prod.ext_iff.mp hbooks
  obtain ⟨-, hsegments⟩ := Prod.ext_iff.mp hrest
  simp only [ParallelScanner.books, Prod.snd_add, yields_eq, zero_add, Finset.sum_multiset_singleton] at hsegments
  rw [show (List.range ps.segments.length : Multiset Nat) = (Finset.range ps.segments.length).val from rfl, ← hsegments,
    add_assoc]
  exact Multiset.le_add_right _ _

/-- Threads that have all left owe nothing. -/
theorem books_finished {s : CancelState} (hfinished : s.Finished) :
    ps.books s = ((s.output : Multiset Batch) + (s.dropped : Multiset Batch), s.stats, (s.scanned : Multiset Nat)) := by
  have hthreads : s.threads.map ps.threadBooks =
      (s.threads.map CancelThread.stats).map fun stats => ((0, stats, 0) : Books) := by
    rw [List.map_map]
    refine List.map_congr_left fun th hth => ?_
    rw [threadBooks, hfinished th hth, owes, add_zero]
    rfl
  have hsum : ∀ l : List ScanStats, (l.map fun stats => ((0, stats, 0) : Books)).sum = (0, l.sum, 0) := by
    intro l
    induction l with
    | nil => rfl
    | cons stats rest ih =>
      rw [List.map_cons, List.sum_cons, ih, List.sum_cons, Prod.mk_add_mk, Prod.mk_add_mk, add_zero,
        add_zero]
  rw [ParallelScanner.books, hthreads, hsum, CancelState.stats, ← List.sum_eq_foldl, Prod.mk_add_mk, Prod.mk_add_mk,
    add_zero, zero_add, add_zero]

end ParallelScanner

theorem deliveredRows_perm {a b : List Batch} (h : a.Perm b) : deliveredRows a = deliveredRows b :=
  (h.map Batch.count).sum_eq

open ParallelScanner in
/-- **However the threads take turns and whenever the scan is cancelled, no segment is
scanned twice and no batch is passed on twice. When all threads are done the counters are
those of the segments that were scanned, whose rows were passed on or dropped; without a
cancellation all segments were scanned and nothing was dropped. Every schedule can be
finished if the segments' scans return.** -/
theorem cancelled_scan_accounts (build : Build) (ps : ParallelScanner) (hn : 1 ≤ ps.numThreads) (predicate : Predicate)
    (events : List ParallelEvent) (s : CancelState) (hrun : ps.runCancellable build predicate events = .ok s) :
    s.scanned.Nodup ∧
    (∀ k ∈ s.scanned, ∃ seg, ps.segments[k]? = some seg ∧
      scanSegment build seg ps.context predicate = .ok (ps.scanOf build predicate k)) ∧
    (s.output ++ s.dropped).Subperm (s.scanned.flatMap fun k => (ps.scanOf build predicate k).2) ∧
    (s.Finished →
      s.stats = (s.scanned.map fun k => (ps.scanOf build predicate k).1).sum ∧
      s.stats.rowsReturned = deliveredRows s.output + deliveredRows s.dropped ∧
      (s.cancelled = false → s.scanned.Perm (List.range ps.segments.length) ∧ s.dropped = [])) ∧
    ((∀ seg ∈ ps.segments, ∃ scan, scanSegment build seg ps.context predicate = .ok scan) →
      ∃ more s', .cancel ∉ more ∧ ps.runCancellable build predicate (events ++ more) = .ok s' ∧ s'.Finished) := by
  have hkept := run_kept hn hrun
  obtain ⟨skipped, hrunning, hbooks⟩ := hkept.books
  obtain ⟨hbatches, hrest⟩ := Prod.ext_iff.mp hbooks
  refine ⟨?_, hkept.scanned, ?_, fun hfinished => ?_, fun hall => ?_⟩
  · exact Multiset.coe_nodup.mp (Multiset.nodup_of_le hkept.segments (Multiset.coe_nodup.mpr List.nodup_range))
  · simp only [ParallelScanner.books, Prod.fst_add, add_zero, yields_eq] at hbatches
    rw [← Multiset.coe_le, ← hbatches, ← Multiset.coe_add]
    exact Multiset.le_add_right _ _
  · obtain ⟨hstats, hsegments⟩ := Prod.ext_iff.mp hrest
    simp only [books_finished hfinished, Prod.fst_add, Prod.snd_add, add_zero, yields_eq, zero_add]
      at hbatches hstats hsegments
    have hperm : (s.output ++ s.dropped).Perm (s.scanned.flatMap fun k => (ps.scanOf build predicate k).2) :=
      Multiset.coe_eq_coe.mp ((Multiset.coe_add _ _).symm.trans hbatches)
    have hcounted : ∀ l : List Nat, (∀ k ∈ l, k ∈ s.scanned) →
        (l.map fun k => (ps.scanOf build predicate k).1).sum.rowsReturned =
          deliveredRows (l.flatMap fun k => (ps.scanOf build predicate k).2) := by
      intro l hl
      induction l with
      | nil => rfl
      | cons k rest ih =>
        obtain ⟨seg, -, hscan⟩ := hkept.scanned k (hl k List.mem_cons_self)
        have hrows : (ps.scanOf build predicate k).1.rowsReturned = deliveredRows (ps.scanOf build predicate k).2 :=
          rowsReturned_scanSegment hscan
        rw [List.map_cons, List.sum_cons, List.flatMap_cons, deliveredRows_append, ← hrows,
          ← ih fun k' hk' => hl k' (List.mem_cons_of_mem _ hk')]
        rfl
    refine ⟨hstats, ?_, fun hgoing => ⟨?_, hkept.dropped hgoing⟩⟩
    · rw [hstats, hcounted _ fun _ hk => hk, ← deliveredRows_perm hperm, deliveredRows_append]
    · rw [hrunning hgoing, add_zero, Finset.sum_multiset_singleton] at hsegments
      exact Multiset.coe_eq_coe.mp hsegments
  · obtain ⟨more, hmore, s', hafter, hdone⟩ := hkept.finish hn hall
    refine ⟨more, s', hmore, ?_, hdone⟩
    rw [runCancellable, List.foldlM_append, ← runCancellable, hrun]
    exact hafter

/-! ### Two threads and a segment for each -/

namespace ParallelScanner

/-- The segment hands out three batches. -/
def sampleScan : ParallelScanner :=
  ⟨[IntactSegment.sample.segment, IntactSegment.sample.segment], .unpruned 2, 2⟩

/-- The first thread passes on a batch and looks before the next, the second looks before
its segment. -/
def sampleBefore : List ParallelEvent := List.replicate 5 (.thread 0) ++ [.thread 1]

/-- Both threads go on until they leave. -/
def sampleAfter : List ParallelEvent := List.replicate 5 (.thread 0) ++ List.replicate 6 (.thread 1)

end ParallelScanner

instance (phase : ScanPhase) : Decidable (phase = .left) :=
  match phase with
  | .left => .isTrue rfl
  | .looping _ | .starting _ | .scanning .. | .passing .. => .isFalse nofun

instance (s : CancelState) : Decidable s.Finished := inferInstanceAs (Decidable (∀ th ∈ s.threads, th.phase = .left))

open ParallelScanner in
/-- Cancelled between the looks and what follows them, the scans of both segments count the
three rows that were passed on and the five that were dropped. -/
theorem sample_cancelled : ∃ s : CancelState,
    sampleScan.runCancellable .scalar IntactSegment.sampleChain.predicate
      (sampleBefore ++ .cancel :: sampleAfter) = .ok s ∧
    s.Finished ∧ s.scanned = [0, 1] ∧ s.output.map Batch.count = [2, 1] ∧ s.dropped.map Batch.count = [1, 2, 1, 1] ∧
    (s.output ++ s.dropped).Subperm
      (s.scanned.flatMap fun k => (sampleScan.scanOf .scalar IntactSegment.sampleChain.predicate k).2) ∧
    s.stats = (s.scanned.map fun k => (sampleScan.scanOf .scalar IntactSegment.sampleChain.predicate k).1).sum ∧
    s.stats.rowsReturned = deliveredRows s.output + deliveredRows s.dropped := by
  have hshown : (sampleScan.runCancellable .scalar IntactSegment.sampleChain.predicate
      (sampleBefore ++ .cancel :: sampleAfter)).map (fun s =>
        (decide s.Finished, s.scanned, s.output.map Batch.count, s.dropped.map Batch.count)) =
      .ok (true, [0, 1], [2, 1], [1, 2, 1, 1]) := by decide +kernel
  obtain ⟨s, hrun, hs⟩ := map_eq_ok.mp hshown
  simp only [Prod.mk.injEq, decide_eq_true_eq] at hs
  obtain ⟨hfinished, hscanned, houtput, hdropped⟩ := hs
  obtain ⟨-, -, hsubperm, hdone, -⟩ := cancelled_scan_accounts .scalar sampleScan (by decide)
    IntactSegment.sampleChain.predicate (sampleBefore ++ .cancel :: sampleAfter) s hrun
  obtain ⟨hstats, hrows, -⟩ := hdone hfinished
  exact ⟨s, hrun, hfinished, hscanned, houtput, hdropped, hsubperm, hstats, hrows⟩

/-! ### After the cancellation -/

namespace ParallelScanner
variable {build : Build} {ps : ParallelScanner} {predicate : Predicate}

/-- A cancelled scan uses up the looks that found the flag clear. -/
theorem Move.late {phase phase' : ScanPhase} {counted : ScanStats} {passed dropped : List Batch}
    {entered : List Nat} (h : Move build ps predicate true phase phase' counted passed dropped entered) :
    passed.length + phase'.passes = phase.passes ∧ entered.length + phase'.starts = phase.starts := by
  cases h with
  | start index hlt hrunning => cases hrunning
  | look index stats batch rest hrunning => cases hrunning
  | _ => exact ⟨rfl, rfl⟩

/-- What a cancelled scan still passes on and starts. -/
def Late (s s' : CancelState) : Prop :=
  s'.cancelled = true ∧
    (∃ late, s'.output = s.output ++ late ∧ late.length + s'.passing = s.passing) ∧
    ∃ started, s'.scanned = s.scanned ++ started ∧ started.length + s'.starting = s.starting

theorem Late.step {s s₁ s₂ : CancelState} (h : Late s s₁) {event : ParallelEvent}
    (hstep : ps.stepCancellable build predicate s₁ event = .ok s₂) : Late s s₂ := by
  obtain ⟨hcancelled, ⟨late, houtput, hpassing⟩, ⟨started, hscanned, hstarting⟩⟩ := h
  cases event with
  | cancel =>
    cases hstep
    exact ⟨rfl, ⟨late, houtput, hpassing⟩, ⟨started, hscanned, hstarting⟩⟩
  | thread t =>
    rw [stepCancellable] at hstep
    cases hth : s₁.threads[t]? with
    | none =>
      rw [hth] at hstep
      cases hstep
      exact ⟨hcancelled, ⟨late, houtput, hpassing⟩, ⟨started, hscanned, hstarting⟩⟩
    | some th =>
      rw [hth] at hstep
      rcases stepPhase_cases hstep with ⟨-, rfl⟩ | ⟨phase, counted, passed, dropped, entered, hmove, rfl⟩
      · exact ⟨hcancelled, ⟨late, houtput, hpassing⟩, ⟨started, hscanned, hstarting⟩⟩
      rw [hcancelled] at hmove
      obtain ⟨hpasses, hstarts⟩ := Move.late hmove
      obtain ⟨others, hsum, hset⟩ := exists_sum_rest (fun th : CancelThread => th.phase.passes) hth
      obtain ⟨others', hsum', hset'⟩ := exists_sum_rest (fun th : CancelThread => th.phase.starts) hth
      refine ⟨hcancelled, ⟨late ++ passed, ?_, ?_⟩, ⟨started ++ entered, ?_, ?_⟩⟩
      · rw [← List.append_assoc, ← houtput]
      · rw [CancelState.passing, hsum] at hpassing
        rw [CancelState.passing, hset, List.length_append]
        dsimp only at hpassing ⊢
        omega
      · rw [← List.append_assoc, ← hscanned]
      · rw [CancelState.starting, hsum'] at hstarting
        rw [CancelState.starting, hset', List.length_append]
        dsimp only at hstarting ⊢
        omega

end ParallelScanner

/-- A thread is on the way to one thing at most. -/
theorem passing_add_starting_le (s : CancelState) : s.passing + s.starting ≤ s.threads.length := by
  rw [CancelState.passing, CancelState.starting, ← List.sum_map_add]
  have hone : ∀ n ∈ s.threads.map fun th => th.phase.passes + th.phase.starts, n ≤ 1 := by
    intro n hn
    obtain ⟨th, -, rfl⟩ := List.mem_map.mp hn
    cases th.phase <;> simp [ScanPhase.passes, ScanPhase.starts]
  have hsum := List.sum_le_card_nsmul _ 1 hone
  rwa [List.length_map, smul_eq_mul, Nat.mul_one] at hsum

open ParallelScanner in
/-- **After `Cancel` the output function is called no more often, and no more segments are
started, than there are threads that looked at the flag before and have not gone on since:
all of these do when the scan is finished, and there are no more of them than threads.** -/
theorem cancel_stops (build : Build) (ps : ParallelScanner) (hn : 1 ≤ ps.numThreads) (predicate : Predicate)
    (before after : List ParallelEvent) (s s' : CancelState)
    (hbefore : ps.runCancellable build predicate before = .ok s)
    (hafter : ps.runCancellable build predicate (before ++ .cancel :: after) = .ok s') :
    s.passing + s.starting ≤ ps.numThreads ∧
    ∃ late started, s'.output = s.output ++ late ∧ s'.scanned = s.scanned ++ started ∧
      late.length ≤ s.passing ∧ started.length ≤ s.starting ∧
      (s'.Finished → late.length = s.passing ∧ started.length = s.starting) := by
  rw [runCancellable, List.foldlM_append, ← runCancellable, hbefore] at hafter
  have hrest : after.foldlM (ps.stepCancellable build predicate) {s with cancelled := true} = .ok s' := hafter
  have hstart : Late s {s with cancelled := true} :=
    ⟨rfl, ⟨[], (List.append_nil _).symm, Nat.zero_add _⟩, ⟨[], (List.append_nil _).symm, Nat.zero_add _⟩⟩
  have hlate : Late s s' := foldlM_preserves (fun _ _ _ _ h hstep => Late.step h hstep) hstart hrest
  obtain ⟨-, ⟨late, houtput, hpassing⟩, ⟨started, hscanned, hstarting⟩⟩ := hlate
  have hthreads : s.threads.length = ps.numThreads := (run_kept hn hbefore).threads
  refine ⟨hthreads ▸ passing_add_starting_le s, late, started, houtput, hscanned, by omega, by omega,
    fun hfinished => ?_⟩
  have hnone : s'.passing = 0 ∧ s'.starting = 0 := by
    constructor
    · refine List.sum_eq_zero fun n hn => ?_
      obtain ⟨th, hth, rfl⟩ := List.mem_map.mp hn
      rw [hfinished th hth]
      rfl
    · refine List.sum_eq_zero fun n hn => ?_
      obtain ⟨th, hth, rfl⟩ := List.mem_map.mp hn
      rw [hfinished th hth]
      rfl
  omega

open ParallelScanner in
/-- One thread is on the way to a call of the output function, the other on the way to its
segment: both go on, and then no more. -/
theorem sample_cancel_stops : ∃ s s' : CancelState,
    sampleScan.runCancellable .scalar IntactSegment.sampleChain.predicate sampleBefore = .ok s ∧
    sampleScan.runCancellable .scalar IntactSegment.sampleChain.predicate
      (sampleBefore ++ .cancel :: sampleAfter) = .ok s' ∧
    s'.Finished ∧ s.passing = 1 ∧ s.starting = 1 ∧
    ∃ late started, s'.output = s.output ++ late ∧ s'.scanned = s.scanned ++ started ∧
      late.length = 1 ∧ started.length = 1 := by
  have hbefore : (sampleScan.runCancellable .scalar IntactSegment.sampleChain.predicate sampleBefore).map
      (fun s => (s.passing, s.starting)) = .ok (1, 1) := by decide +kernel
  have hafter : (sampleScan.runCancellable .scalar IntactSegment.sampleChain.predicate
      (sampleBefore ++ .cancel :: sampleAfter)).map (fun s => decide s.Finished) = .ok true := by decide +kernel
  obtain ⟨s, hrun, hs⟩ := map_eq_ok.mp hbefore
  obtain ⟨s', hrun', hs'⟩ := map_eq_ok.mp hafter
  obtain ⟨hpassing, hstarting⟩ := Prod.mk.inj hs
  have hfinished : s'.Finished := of_decide_eq_true hs'
  obtain ⟨-, late, started, houtput, hscanned, -, -, hdone⟩ := cancel_stops .scalar sampleScan (by decide)
    IntactSegment.sampleChain.predicate sampleBefore sampleAfter s s' hrun hrun'
  obtain ⟨hlate, hstarted⟩ := hdone hfinished
  exact ⟨s, s', hrun, hrun', hfinished, hpassing, hstarting, late, started, houtput, hscanned,
    hlate.trans hpassing, hstarted.trans hstarting⟩

end ColumnarStore.Scanner
